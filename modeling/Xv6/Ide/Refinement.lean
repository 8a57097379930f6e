import Xv6.Ide.Driver

/-!
# The interrupt-driven driver refines the one in memory

The requests that are not yet completed form the queue, in the order of their calls, and their
buffers stay as their holders filled them. The drive works on the first of them and on nothing
else. So every interrupt completes the oldest request, and what it does to the disk and to the
buffer is what `memide.c` does when it is handed the requests in that order.
-/

namespace Xv6

open Function (update update_apply update_of_ne update_self)

structure IdeRequest.Proper (r : IdeRequest) : Prop where
  busy : r.image.busy = true
  unsynced : r.image.synced = false
  device : r.image.dev = 1
  inside : r.image.blockno.toNat < fsSize

def DriveState.effect (drive : DriveState) (disk : BlockNo → Block) : BlockNo → Block :=
  match drive with
  | .ready c =>
    match c.write with
    | some data => Function.update disk c.sector data
    | none => disk
  | _ => disk

theorem IdeRequest.apart {r other : IdeRequest} {requests : List IdeRequest}
    (fresh : r.b ∉ requests.map IdeRequest.b) (member : other ∈ requests) : other.b ≠ r.b :=
  fun same => fresh (same ▸ List.mem_map_of_mem member)

def DriveState.Serves (drive : DriveState) : List IdeRequest → Prop
  | [] => drive = .idle
  | r :: _ => drive = .working r.image.command ∨ drive = .ready r.image.command

def IdeRequest.served (r : IdeRequest) (disk : BlockNo → Block) : Buf :=
  { r.image with
    data := if r.image.dirty then r.image.data else disk r.image.blockno
    valid := true
    dirty := false }

section Requests

variable {r : IdeRequest}

theorem IdeRequest.Proper.command_eq (proper : r.Proper) :
    r.image.command.device = 1 ∧ r.image.command.sector = r.image.blockno := by
  constructor
  · show r.image.dev &&& 1 = 1
    rw [proper.device]
    rfl
  · have inside := proper.inside
    apply BitVec.eq_of_toNat_eq
    show (r.image.blockno &&& 0x0FFFFFFF).toNat = _
    rw [BitVec.toNat_and]
    have mask : (0x0FFFFFFF : Word).toNat = 2 ^ 28 - 1 := rfl
    rw [mask, Nat.and_two_pow_sub_one_eq_mod]
    unfold fsSize at inside
    omega

theorem IdeRequest.Proper.perform (proper : r.Proper) (disk : Word → BlockNo → Block) :
    r.image.command.perform disk 1 = (DriveState.ready r.image.command).effect (disk 1) := by
  have device := proper.command_eq.1
  cases write : r.image.command.write with
  | some data =>
    simp only [IdeCommand.perform, DriveState.effect, write, device, update_self]
  | none => simp only [IdeCommand.perform, DriveState.effect, write]

theorem IdeRequest.Proper.memide (proper : r.Proper) (m : MemIde) :
    m.iderw r = .ok {
      disk := (DriveState.ready r.image.command).effect m.disk
      buf := update m.buf r.b (r.served m.disk) } := by
  have sector := proper.command_eq.2
  unfold MemIde.iderw
  rw [if_neg (by rw [proper.busy]; nofun), if_neg (by rw [proper.unsynced]; nofun),
    if_neg (not_not_intro proper.device), if_neg (Nat.not_le.mpr proper.inside)]
  cases dirty : r.image.dirty with
  | true =>
    have write : r.image.command.write = some r.image.data := if_pos dirty
    simp only [DriveState.effect, write, sector, IdeRequest.served, dirty, ↓reduceIte]
  | false =>
    have write : r.image.command.write = none := if_neg (by rw [dirty]; nofun)
    simp only [DriveState.effect, write, IdeRequest.served, dirty, Bool.false_eq_true, ↓reduceIte]

end Requests

namespace IdeSystem

variable {P : Type} [DecidableEq P]

/-- A call of `iderw` is on a buffer that no other process uses it for, and for a block of
drive 1. -/
def Held (m : IdeSystem P) : IdeAction P → Prop
  | .iderw _ b image =>
    (∀ q, ¬ (m.pc q).on b) ∧ image.dev = 1 ∧ image.blockno.toNat < fsSize
  | _ => True

instance [Fintype P] (m : IdeSystem P) : (action : IdeAction P) → Decidable (m.Held action)
  | .iderw _ b image => inferInstanceAs (Decidable
      ((∀ q, ¬ (m.pc q).on b) ∧ image.dev = 1 ∧ image.blockno.toNat < fsSize))
  | .advance _ | .finish | .interrupt | .kill _ => inferInstanceAs (Decidable True)

/-- What holds of the queue, the drive and the buffers between any two steps, from the disk and
buffers they started with, when some requests are done and the others pending. -/
structure Queued (origin : MemIde) (m : IdeSystem P) (done pending : List IdeRequest) : Prop where
  requests : m.requests = done ++ pending
  linked : Chain.Linked m.qnext m.idequeue (pending.map IdeRequest.b)
  distinct : (pending.map IdeRequest.b).Nodup
  filled : ∀ r ∈ pending, m.buf r.b = r.image ∧ r.Proper
  serves : m.drive.Serves pending
  completed : m.completed = done.map IdeRequest.b
  started : m.started = (done ++ pending.take 1).map IdeRequest.b
  memory : ∃ s, Transition.run MemIde.iderw origin done = .ok s ∧
    m.disk 1 = m.drive.effect s.disk ∧ ∀ b, b ∉ pending.map IdeRequest.b → m.buf b = s.buf b

structure Follows (origin : MemIde) (m : IdeSystem P) (done pending : List IdeRequest) : Prop where
  queued : m.Queued origin done pending
  awaited : ∀ r ∈ pending, ∃ q, (m.pc q).on r.b
  numbered : ∀ q b n, m.pc q = .asleep b n ∨ m.pc q = .woken b n →
    ((done ++ pending).map IdeRequest.b)[n]? = some b
  returned : ∀ n ∈ m.returned, n < done.length

variable {origin : MemIde} {m m' : IdeSystem P} {done pending rest : List IdeRequest}
  {r : IdeRequest} {c : IdeCommand}

namespace Queued

omit [DecidableEq P]

theorem congr (queued : m.Queued origin done pending) (pc : P → IdePc) (returned : List Nat) :
    { m with pc := pc, returned := returned }.Queued origin done pending :=
  { queued with }

theorem unsynced (queued : m.Queued origin done pending) {b : BufNo} {n : Nat}
    (numbered : ((done ++ pending).map IdeRequest.b)[n]? = some b) (waits : done.length ≤ n) :
    (m.buf b).synced = false := by
  rw [List.getElem?_map, List.getElem?_append_right waits] at numbered
  obtain ⟨r, found, rfl⟩ := Option.map_eq_some_iff.mp numbered
  obtain ⟨same, proper⟩ := queued.filled r (List.mem_of_getElem? found)
  rw [same]
  exact proper.unsynced

theorem command (queued : m.Queued origin done pending)
    (busy : m.drive = .working c ∨ m.drive = .ready c) :
    ∃ r rest, pending = r :: rest ∧ c = r.image.command := by
  have serves := queued.serves
  cases pending with
  | nil => rcases busy with busy | busy <;> cases serves.symm.trans busy
  | cons r rest =>
    refine ⟨r, rest, rfl, ?_⟩
    rcases serves with works | waits <;> rcases busy with busy | busy
    · cases works.symm.trans busy
      rfl
    · cases works.symm.trans busy
    · cases waits.symm.trans busy
    · cases waits.symm.trans busy
      rfl

theorem idestart_eq (idle : m.drive = .idle) {b : BufNo} (taken : m.idestart b = .ok m') :
    m' = { m with drive := .working (m.buf b).command, started := m.started ++ [b] } := by
  unfold IdeSystem.idestart at taken
  rw [idle] at taken
  split at taken
  · cases taken
  · cases taken
    rfl

theorem appended (queued : m.Queued origin done pending) (proper : r.Proper)
    (fresh : r.b ∉ pending.map IdeRequest.b) {qnext : BufNo → Option BufNo}
    {idequeue : Option BufNo} {drive : DriveState} {started : List BufNo}
    (longer : Chain.Linked qnext idequeue (pending.map IdeRequest.b ++ [r.b]))
    (serves : drive.Serves (pending ++ [r])) (effect : drive.effect = m.drive.effect)
    (begun : started = (done ++ (pending ++ [r]).take 1).map IdeRequest.b) :
    { m with
      buf := update m.buf r.b r.image
      requests := m.requests ++ [r]
      qnext := qnext
      idequeue := idequeue
      drive := drive
      started := started }.Queued origin done (pending ++ [r]) where
  requests := by rw [queued.requests, List.append_assoc]
  linked := by
    rw [List.map_append]
    exact longer
  distinct := by
    rw [List.map_append]
    exact List.nodup_append.mpr ⟨queued.distinct, List.nodup_singleton _, fun b member c same =>
      fun equal => fresh (by rw [← List.mem_singleton.mp same, ← equal]; exact member)⟩
  filled := fun other member => by
    rcases List.mem_append.mp member with earlier | last
    · have same := update_of_ne (IdeRequest.apart fresh earlier) r.image m.buf
      exact ⟨same.trans (queued.filled other earlier).1, (queued.filled other earlier).2⟩
    · rw [List.mem_singleton.mp last]
      exact ⟨update_self .., proper⟩
  serves := serves
  completed := queued.completed
  started := begun
  memory := by
    obtain ⟨s, ran, disk, buffers⟩ := queued.memory
    refine ⟨s, ran, disk.trans (congrFun effect.symm _), fun b absent => ?_⟩
    rw [List.map_append, List.mem_append, not_or] at absent
    have apart : b ≠ r.b := fun same => absent.2 (List.mem_singleton.mpr same)
    exact (update_of_ne apart _ _).trans (buffers b absent.1)

theorem append (queued : m.Queued origin done pending) (proper : r.Proper)
    (fresh : r.b ∉ pending.map IdeRequest.b) {queue : IdeSystem P}
    (enqueued : { m with
      buf := update m.buf r.b r.image
      requests := m.requests ++ [r] }.enqueue r.b = .ok queue)
    (begun : (if queue.idequeue = some r.b then queue.idestart r.b else .ok queue) = .ok m') :
    m'.Queued origin done (pending ++ [r]) ∧ m'.pc = m.pc ∧ m'.returned = m.returned := by
  have linked : Chain.Linked (update m.qnext r.b none) m.idequeue
      (pending.map IdeRequest.b) := by
    refine queued.linked.congr fun node member => ?_
    have apart : node ≠ r.b := fun same => fresh (same ▸ member)
    exact update_of_ne apart _ _
  have few : (pending.map IdeRequest.b).length ≤ nbuf := by
    have bound := queued.distinct.length_le_card
    rwa [Fintype.card_fin] at bound
  obtain ⟨qnext, idequeue, pushed, longer, -⟩ :=
    Chain.pushBack_linked linked queued.distinct fresh few
  unfold enqueue at enqueued
  simp only [pushed] at enqueued
  cases enqueued
  have started := queued.started
  have serves := queued.serves
  cases pending with
  | nil =>
    rw [if_pos longer.1] at begun
    rw [idestart_eq (by exact serves) begun]
    refine ⟨queued.appended proper fresh longer (.inl ?_) ?_ ?_, rfl, rfl⟩
    · simp only [update_self]
    · rw [show m.drive = .idle from serves]
      rfl
    · rw [started]
      simp
  | cons first others =>
    rw [if_neg] at begun
    · cases begun
      exact ⟨queued.appended proper fresh longer serves rfl started, rfl, rfl⟩
    · intro same
      have front : idequeue = some first.b := longer.1
      have equal : first.b = r.b := Option.some.inj (front.symm.trans same)
      exact fresh (equal ▸ List.mem_cons_self)

theorem served_eq (queued : m.Queued origin done (r :: rest)) (ready : m.drive = .ready c)
    {disk : BlockNo → Block} (effect : m.disk 1 = m.drive.effect disk) :
    ({ r.image with
      data := if r.image.dirty then r.image.data else c.transfers m.disk
      valid := true
      dirty := false } : Buf) = r.served disk := by
  obtain ⟨_, _, ⟨⟩, rfl⟩ := queued.command (.inr ready)
  obtain ⟨device, sector⟩ := (queued.filled r List.mem_cons_self).2.command_eq
  unfold IdeRequest.served
  cases dirty : r.image.dirty with
  | true => rfl
  | false =>
    have write : r.image.command.write = none := if_neg (by rw [dirty]; nofun)
    have read : r.image.command.transfers m.disk = disk r.image.blockno := by
      unfold IdeCommand.transfers
      rw [device, sector, effect, ready]
      simp only [DriveState.effect, write]
    simp [read]

theorem completes (queued : m.Queued origin done (r :: rest)) (ready : m.drive = .ready c)
    {s : MemIde} (ran : Transition.run MemIde.iderw origin done = .ok s)
    (disk : m.disk 1 = m.drive.effect s.disk)
    (buffers : ∀ b, b ∉ (r :: rest).map IdeRequest.b → m.buf b = s.buf b)
    (pc : P → IdePc) (drive : DriveState) (started : List BufNo) (serves : drive.Serves rest)
    (quiet : ∀ disk, drive.effect disk = disk)
    (begun : started = (done ++ [r] ++ rest.take 1).map IdeRequest.b) :
    { m with
      drive := drive
      started := started
      idequeue := m.qnext r.b
      buf := update m.buf r.b (r.served s.disk)
      pc := pc
      completed := m.completed ++ [r.b] }.Queued origin (done ++ [r]) rest where
  requests := by rw [queued.requests, List.append_assoc, List.singleton_append]
  linked := queued.linked.2
  distinct := (List.nodup_cons.mp queued.distinct).2
  filled := fun other inside => by
    have apart := IdeRequest.apart (List.nodup_cons.mp queued.distinct).1 inside
    have before := queued.filled other (List.mem_cons_of_mem _ inside)
    exact ⟨(update_of_ne apart _ _).trans before.1, before.2⟩
  serves := serves
  completed := by rw [queued.completed, List.map_append, List.map_singleton]
  started := begun
  memory := by
    obtain ⟨_, _, ⟨⟩, rfl⟩ := queued.command (.inr ready)
    have proper := (queued.filled r List.mem_cons_self).2
    refine ⟨_, Transition.run_concat.mpr ⟨s, ran, proper.memide s⟩, ?_, fun b absent => ?_⟩
    · rw [quiet, disk, ready]
    · simp only [update_apply]
      split
      · rfl
      · rename_i apart
        exact buffers b (List.not_mem_cons_of_ne_of_not_mem apart absent)

theorem ideintr (queued : m.Queued origin done pending) (ready : m.drive = .ready c)
    (taken : m.ideintr c = .ok m') :
    ∃ r rest, pending = r :: rest ∧ m'.Queued origin (done ++ [r]) rest ∧
      m'.pc = (fun p => (m.pc p).wake r.b) ∧ m'.returned = m.returned := by
  obtain ⟨r, rest, rfl, -⟩ := queued.command (.inr ready)
  obtain ⟨s, ran, disk, buffers⟩ := queued.memory
  have filled := (queued.filled r List.mem_cons_self).1
  have started := queued.started
  refine ⟨r, rest, rfl, ?_⟩
  unfold IdeSystem.ideintr at taken
  simp only [queued.linked.1, filled, queued.served_eq ready disk] at taken
  cases rest with
  | nil =>
    have last : m.qnext r.b = none := queued.linked.2
    simp only [last] at taken
    cases taken
    have after := queued.completes ready ran disk buffers (fun p => (m.pc p).wake r.b) .idle
      m.started rfl (fun _ => rfl) (started.trans (by simp))
    rw [last] at after
    exact ⟨after, rfl, rfl⟩
  | cons next others =>
    have following : m.qnext r.b = some next.b := queued.linked.2.1
    have apart := IdeRequest.apart (List.nodup_cons.mp queued.distinct).1 List.mem_cons_self
    have image : update m.buf r.b (r.served s.disk) next.b = next.image := by
      rw [update_of_ne apart]
      exact (queued.filled next (List.mem_cons_of_mem _ List.mem_cons_self)).1
    simp only [following] at taken
    have after := queued.completes ready ran disk buffers (fun p => (m.pc p).wake r.b)
      (.working next.image.command) (m.started ++ [next.b]) (.inl rfl) (fun _ => rfl)
      (by rw [started]; simp)
    rw [following] at after
    rw [idestart_eq rfl taken]
    simp only [image]
    exact ⟨after, trivial, trivial⟩

theorem finish (queued : m.Queued origin done pending) (working : m.drive = .working c) :
    { m with disk := c.perform m.disk, drive := .ready c }.Queued origin done pending := by
  obtain ⟨r, rest, rfl, rfl⟩ := queued.command (.inl working)
  obtain ⟨s, ran, disk, buffers⟩ := queued.memory
  rw [working] at disk
  have proper := (queued.filled r List.mem_cons_self).2
  refine { queued with
    serves := .inr rfl
    memory := ⟨s, ran, ?_, buffers⟩ }
  show r.image.command.perform m.disk 1 = _
  rw [proper.perform, disk]
  rfl

end Queued

theorem on_wake (pc : IdePc) (b c : BufNo) : (pc.wake b).on c ↔ pc.on c := by
  cases pc with
  | outside => exact Iff.rfl
  | woken d n => exact Iff.rfl
  | asleep d n =>
    simp only [IdePc.wake]
    split <;> exact Iff.rfl

theorem wake_numbered {pc : IdePc} {b c : BufNo} {n : Nat}
    (control : pc.wake b = .asleep c n ∨ pc.wake b = .woken c n) :
    pc = .asleep c n ∨ pc = .woken c n := by
  cases pc with
  | outside => exact control
  | woken d k => exact control
  | asleep d k =>
    simp only [IdePc.wake] at control
    split at control
    · rcases control with control | control
      · cases control
      · cases control
        exact .inl rfl
    · exact control

theorem waits_update {pc : P → IdePc} {p q : P} {moved : IdePc} {b : BufNo} {n : Nat}
    (control : update pc p moved q = .asleep b n ∨
      update pc p moved q = .woken b n) :
    (moved = .asleep b n ∨ moved = .woken b n) ∨
      q ≠ p ∧ (pc q = .asleep b n ∨ pc q = .woken b n) := by
  rw [update_apply] at control
  split at control
  · exact .inl control
  · rename_i other
    exact .inr ⟨other, control⟩

theorem on_update {pc : P → IdePc} {p q : P} (other : q ≠ p) (moved : IdePc) {b : BufNo}
    (on : (pc q).on b) : (update pc p moved q).on b := by
  rw [update_of_ne other]
  exact on

namespace Follows

theorem await (queued : m.Queued origin done pending) {p : P} {b : BufNo} {n : Nat}
    (mine : ((done ++ pending).map IdeRequest.b)[n]? = some b)
    (numbered : ∀ q c k, q ≠ p → m.pc q = .asleep c k ∨ m.pc q = .woken c k →
      ((done ++ pending).map IdeRequest.b)[k]? = some c)
    (returned : ∀ k ∈ m.returned, k < done.length)
    (awaited : ∀ r ∈ pending, r.b ≠ b → ∃ q, q ≠ p ∧ (m.pc q).on r.b) :
    (m.await p b n).Follows origin done pending := by
  unfold IdeSystem.await
  split
  case isTrue synced =>
    have completed : n < done.length := by
      by_contra waits
      rw [queued.unsynced mine (by omega)] at synced
      cases synced
    refine ⟨queued.congr _ _, fun r member => ?_, fun q c k control => ?_, fun k member => ?_⟩
    · have other : r.b ≠ b := by
        rintro rfl
        have waits := (queued.filled r member).2.unsynced
        rw [← (queued.filled r member).1, synced] at waits
        cases waits
      obtain ⟨q, apart, on⟩ := awaited r member other
      exact ⟨q, on_update apart _ on⟩
    · rcases waits_update control with (moved | moved) | ⟨apart, before⟩
      · cases moved
      · cases moved
      · exact numbered q c k apart before
    · rcases List.mem_append.mp member with earlier | here
      · exact returned k earlier
      · rw [List.mem_singleton.mp here]
        exact completed
  case isFalse =>
    refine ⟨queued.congr _ _, fun r member => ?_, fun q c k control => ?_, returned⟩
    · by_cases same : r.b = b
      · refine ⟨p, ?_⟩
        show (update m.pc p (.asleep b n) p).on r.b
        rw [update_self]
        exact same.symm
      · obtain ⟨q, apart, on⟩ := awaited r member same
        exact ⟨q, on_update apart _ on⟩
    · rcases waits_update control with (moved | moved) | ⟨apart, before⟩
      · cases moved
        exact mine
      · cases moved
      · exact numbered q c k apart before

theorem iderw (follows : m.Follows origin done pending) {p : P} {b : BufNo} {image : Buf}
    (outside : m.pc p = .outside) (held : m.Held (.iderw p b image))
    (taken : m.iderw p b image = .ok m') :
    m'.Follows origin done (pending ++ [⟨b, image⟩]) := by
  obtain ⟨free, device, inside⟩ := held
  unfold IdeSystem.iderw at taken
  simp only at taken
  split at taken
  · cases taken
  rename_i busy
  split at taken
  · cases taken
  rename_i unsynced
  split at taken
  · cases taken
  obtain ⟨queue, enqueued, taken⟩ := Transition.bind_ok.mp taken
  obtain ⟨begun, start, rfl⟩ : ∃ begun, (if queue.idequeue = some b then queue.idestart b
      else .ok queue) = .ok begun ∧ begun.await p b (begun.requests.length - 1) = m' := by
    split at taken
    case isTrue first =>
      obtain ⟨begun, start, taken⟩ := Transition.bind_ok.mp taken
      exact ⟨begun, (if_pos first).trans start, Except.ok.inj taken⟩
    case isFalse later => exact ⟨queue, if_neg later, Except.ok.inj taken⟩
  have proper : IdeRequest.Proper ⟨b, image⟩ :=
    ⟨by simpa using busy, by simpa using unsynced, device, inside⟩
  have fresh : b ∉ pending.map IdeRequest.b := by
    intro member
    obtain ⟨r, waits, rfl⟩ := List.mem_map.mp member
    obtain ⟨q, on⟩ := follows.awaited r waits
    exact free q on
  obtain ⟨queued, pc, returned⟩ := follows.queued.append proper fresh enqueued start
  refine await queued ?_ ?_ ?_ ?_
  · rw [queued.requests, ← List.append_assoc]
    simp
  · intro q c k _ control
    rw [pc] at control
    have found := follows.numbered q c k control
    rw [← List.append_assoc, List.map_append, List.getElem?_append_left]
    · exact found
    · exact (List.getElem?_eq_some_iff.mp found).1
  · rw [returned]
    exact follows.returned
  · intro r member other
    rcases List.mem_append.mp member with earlier | last
    · obtain ⟨q, on⟩ := follows.awaited r earlier
      refine ⟨q, ?_, by rw [pc]; exact on⟩
      rintro rfl
      rw [outside] at on
      exact on
    · exact absurd (congrArg IdeRequest.b (List.mem_singleton.mp last)) other

theorem step (follows : m.Follows origin done pending) {action : IdeAction P}
    (held : m.Held action) (taken : m.step action = .ok m') :
    ∃ done pending, m'.Follows origin done pending := by
  cases action with
  | iderw p b image =>
    simp only [IdeSystem.step] at taken
    split at taken
    case isTrue outside => exact ⟨_, _, follows.iderw outside held taken⟩
    case isFalse => cases taken
  | advance p =>
    simp only [IdeSystem.step] at taken
    split at taken
    case h_1 b n control =>
      cases taken
      refine ⟨_, _, await follows.queued (follows.numbered p b n (.inr control))
        (fun q c k _ => follows.numbered q c k) follows.returned fun r member other => ?_⟩
      obtain ⟨q, on⟩ := follows.awaited r member
      refine ⟨q, ?_, on⟩
      rintro rfl
      rw [control] at on
      exact other on.symm
    case h_2 => cases taken
  | finish =>
    simp only [IdeSystem.step] at taken
    split at taken
    case h_1 c working =>
      cases taken
      exact ⟨_, _, { follows with queued := follows.queued.finish working }⟩
    case h_2 => cases taken
  | interrupt =>
    simp only [IdeSystem.step] at taken
    split at taken
    case h_1 c ready =>
      obtain ⟨r, rest, rfl, queued, pc, returned⟩ := follows.queued.ideintr ready taken
      refine ⟨_, _, queued, fun other member => ?_, fun q b n control => ?_, fun n member => ?_⟩
      · obtain ⟨q, on⟩ := follows.awaited other (List.mem_cons_of_mem _ member)
        refine ⟨q, ?_⟩
        rw [pc]
        exact (on_wake (m.pc q) r.b other.b).mpr on
      · rw [pc] at control
        rw [List.append_assoc, List.singleton_append]
        exact follows.numbered q b n (wake_numbered control)
      · rw [returned] at member
        rw [List.length_append]
        exact Nat.lt_add_right _ (follows.returned n member)
    case h_2 => cases taken
  | kill p =>
    simp only [IdeSystem.step] at taken
    split at taken
    case h_1 b n control =>
      cases taken
      refine ⟨_, _, follows.queued.congr _ _, fun r member => ?_, fun q c k moved => ?_,
        follows.returned⟩
      · obtain ⟨q, on⟩ := follows.awaited r member
        by_cases same : q = p
        · refine ⟨p, ?_⟩
          rw [same, control] at on
          show (update m.pc p (.woken b n) p).on r.b
          rw [update_self]
          exact on
        · exact ⟨q, on_update same _ on⟩
      · rcases waits_update moved with (moved | moved) | ⟨-, before⟩
        · cases moved
        · cases moved
          exact follows.numbered p b n (.inl control)
        · exact follows.numbered q c k before
    case h_2 =>
      cases taken
      exact ⟨_, _, follows⟩

end Follows

omit [DecidableEq P] in
theorem booted_follows (disk : Word → BlockNo → Block) (buf : BufNo → Buf) :
    (booted disk buf : IdeSystem P).Follows ⟨disk 1, buf⟩ [] [] where
  queued := {
    requests := rfl
    linked := rfl
    distinct := List.nodup_nil
    filled := fun _ member => by cases member
    serves := rfl
    completed := rfl
    started := rfl
    memory := ⟨_, rfl, rfl, fun _ _ => rfl⟩ }
  awaited := fun _ member => by cases member
  numbered := fun _ _ _ control => by rcases control with control | control <;> cases control
  returned := fun _ member => by cases member

/-- The driver refines the one in memory. In every state that a run of held calls reaches, the
requests were started and completed in the order of their calls, each once; the queue is what
was not completed and its head is the command of the drive; only completed requests have
returned; and disk and buffers are those that `memide.c` makes of the completed requests, but
for the buffers in the queue and for a command that the drive has carried out and whose
interrupt is still to come. -/
theorem ide_refines_memide (disk : Word → BlockNo → Block) (buf : BufNo → Buf)
    (actions : List (IdeAction P)) (m : IdeSystem P)
    (reached : Transition.run step (booted disk buf) actions = .ok m)
    (held : Transition.Along step Held (booted disk buf) actions) :
    m.completed = (m.requests.map IdeRequest.b).take m.completed.length ∧
    m.started = (m.requests.map IdeRequest.b).take
      (m.completed.length + if m.idequeue = none then 0 else 1) ∧
    Chain.Linked m.qnext m.idequeue ((m.requests.drop m.completed.length).map IdeRequest.b) ∧
    (m.idequeue = none → m.drive = .idle) ∧
    (∀ b, m.idequeue = some b →
      m.drive = .working (m.buf b).command ∨ m.drive = .ready (m.buf b).command) ∧
    (∀ n ∈ m.returned, n < m.completed.length) ∧
    ∃ s, Transition.run MemIde.iderw ⟨disk 1, buf⟩ (m.requests.take m.completed.length) = .ok s ∧
      ((∀ c, m.drive ≠ .ready c) → m.disk 1 = s.disk) ∧
      ∀ b, b ∉ (m.requests.drop m.completed.length).map IdeRequest.b → m.buf b = s.buf b := by
  obtain ⟨done, pending, follows⟩ :=
    Transition.run_invariant_along (fun m => ∃ done pending, m.Follows ⟨disk 1, buf⟩ done pending)
      (fun _ _ _ ⟨_, _, follows⟩ held taken => follows.step held taken)
      ⟨[], [], booted_follows disk buf⟩ held reached
  have queued := follows.queued
  have length : m.completed.length = done.length := by rw [queued.completed, List.length_map]
  have first : m.requests.take m.completed.length = done := by
    rw [queued.requests, length, List.take_left]
  have last : m.requests.drop m.completed.length = pending := by
    rw [queued.requests, length, List.drop_left]
  obtain ⟨s, ran, contents, buffers⟩ := queued.memory
  refine ⟨?_, ?_, ?_, ?_, ?_, ?_, s, ?_, fun quiet => ?_, ?_⟩
  · rw [← List.map_take, first, queued.completed]
  · have serves := queued.started
    have head := queued.linked.head_none
    rw [queued.requests, length, serves, ← List.map_take]
    cases pending with
    | nil => rw [if_pos (head.mpr rfl)]; simp
    | cons r rest => rw [if_neg (by simp [head])]; simp [List.take_add_one]
  · rw [last]
    exact queued.linked
  · intro none
    have serves := queued.serves
    rw [List.map_eq_nil_iff.mp (queued.linked.head_none.mp none)] at serves
    exact serves
  · intro b head
    have serves := queued.serves
    have linked := queued.linked
    cases pending with
    | nil => cases linked.symm.trans head
    | cons r rest =>
      cases linked.1.symm.trans head
      rw [(queued.filled r List.mem_cons_self).1]
      exact serves
  · rw [length]
    exact follows.returned
  · rw [first]
    exact ran
  · rw [contents]
    cases drive : m.drive with
    | idle => rfl
    | working c => rfl
    | ready c => exact absurd drive (quiet c)
  · rw [last]
    exact buffers

/-- A block that one process writes and another reads: the read completes after the write. -/
theorem ide_refines_memide_two :
    ∃ m : IdeSystem Bool, Transition.run step
        (booted (fun _ _ _ => 0) fun _ => Bcache.bootBuf)
        [.iderw false 0 ⟨true, true, true, 1, 70, fun _ => 5⟩,
          .iderw true 1 ⟨true, false, false, 1, 70, fun _ => 0⟩,
          .finish, .interrupt, .finish, .interrupt, .advance true] = .ok m ∧
      m.returned = [1] ∧ m.started = [0, 1] ∧ (∀ n ∈ m.returned, n < m.completed.length) := by
  have held : Transition.Along step Held (booted (fun _ _ _ => 0) fun _ => Bcache.bootBuf)
      ([.iderw false 0 ⟨true, true, true, 1, 70, fun _ => 5⟩,
        .iderw true 1 ⟨true, false, false, 1, 70, fun _ => 0⟩,
        .finish, .interrupt, .finish, .interrupt, .advance true] : List (IdeAction Bool)) := by
    decide +kernel
  have checked : Transition.ends (fun m : IdeSystem Bool =>
      decide (m.returned = [1] ∧ m.started = [0, 1]))
      (Transition.run step (booted (fun _ _ _ => 0) fun _ => Bcache.bootBuf)
        [.iderw false 0 ⟨true, true, true, 1, 70, fun _ => 5⟩,
          .iderw true 1 ⟨true, false, false, 1, 70, fun _ => 0⟩,
          .finish, .interrupt, .finish, .interrupt, .advance true]) = true := by
    decide +kernel
  obtain ⟨m, reached, facts⟩ := Transition.exists_of_ends checked
  obtain ⟨returned, started⟩ := of_decide_eq_true facts
  exact ⟨m, reached, returned, started,
    (ide_refines_memide _ _ _ m reached held).2.2.2.2.2.1⟩

end IdeSystem

end Xv6
