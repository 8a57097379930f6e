import Xv6.Fs.Files
import Xv6.Sys.Offset

/-!
# The contents of a shared file

What the transfers through a shared file do to the bytes of its inode: each of them reads or
replaces the bytes at the offset that it is recorded with, and no other step of these processes
changes them. So the file has the contents that the transfers make of the first ones when they are
done one after the other.
-/

namespace Xv6

open BitVec (toNat_ofNat)
open Bytes (Byte)
open Program

namespace Fs

variable {fs : Fs} {ip : InodePtr} {i off n : Word} {bytes : List Byte}

/-- The file system is in order, and the entry holds a file without holes that has the contents. -/
structure Stored (fs : Fs) (ip : InodePtr) (i : Word) (bytes : List Byte) : Prop where
  wf : fs.Wf
  blocks : fs.Blocks
  held : fs.Held ip i
  whole : fs.view.HoleFree i
  content : fs.view.content i = bytes

namespace Stored

variable (stored : fs.Stored ip i bytes)
include stored

theorem setBusy (busy : Bool) :
    (fs.put ip { fs.inode ip with busy := busy }).Stored ip i bytes := by
  have wf := stored.wf.put_kept ip { fs.inode ip with busy := busy } id rfl rfl .inl
  have view := stored.wf.view_entry wf (.inl ⟨.rfl, rfl, rfl, rfl⟩)
  refine ⟨wf, ⟨stored.blocks.reserved, ?_⟩, ⟨⟨?_, ?_, ?_⟩, ?_⟩, ?_, ?_⟩
  · rw [view]
    exact stored.blocks.exact
  · rw [put_self]
    exact stored.held.ref
  · rw [put_self]
    exact stored.held.valid
  · rw [put_self]
    exact stored.held.inum
  · rw [put_self]
    exact stored.held.live
  · rw [view]
    exact stored.whole
  · rw [view]
    exact stored.content

theorem setLog (outstanding : Nat) (logged : List BlockNo) :
    { fs with outstanding := outstanding, logged := logged }.Stored ip i bytes where
  wf := ⟨stored.wf.valid, stored.wf.super, stored.wf.unique, stored.wf.dev, stored.wf.known⟩
  blocks := ⟨stored.blocks.reserved, stored.blocks.exact⟩
  held := ⟨⟨stored.held.ref, stored.held.valid, stored.held.inum⟩, stored.held.live⟩
  whole := stored.whole
  content := stored.content

variable (file : (fs.inode ip).din.type ≠ tDev)
include file

theorem wp_read : Wp (readi ip off n) (fun r fs' => fs' = fs ∧
    ∀ result, r = .ok result → result = (bytes.drop off.toNat).take n.toNat) (fun _ => True)
    fs := by
  refine wp_readi stored.wf stored.blocks stored.held file stored.whole (fun _ => ⟨rfl, nofun⟩)
    fun _ _ => ⟨rfl, fun result same => ?_⟩
  rw [← Except.ok.inj same, stored.content]

theorem wp_write {src : List Byte} (length : src.length = n.toNat) (running : 0 < fs.outstanding) :
    Wp (writei ip src off n) (fun r fs' => r = -1 ∧ fs' = fs ∨
      r = n.toNat ∧ fs'.Stored ip i (Volume.splice bytes off.toNat src)) (fun _ => True) fs := by
  refine wp_writei stored.wf stored.blocks stored.held file stored.whole length
    (fun _ => .inl ⟨rfl, rfl⟩) running (fun _ _ _ => trivial) (fun _ _ => trivial)
    fun fs' _ wrote => .inr ⟨rfl, ?_⟩
  exact ⟨wrote.works.wf, wrote.works.blocks, wrote.works.held stored.held, wrote.whole,
    by rw [wrote.content, stored.content]⟩

end Stored

end Fs

namespace Transfer

variable {P : Type}

def apply (content : List Byte) (t : Transfer P) : List Byte :=
  match t.request with
  | .read _ => content
  | .write _ => Volume.splice content t.start.toNat t.bytes

/-- A read has got the bytes at its offset, as many as it asked for or there are. -/
def Right (content : List Byte) (t : Transfer P) : Prop :=
  match t.request with
  | .read n => t.bytes = (content.drop t.start.toNat).take n.toNat
  | .write _ => True

end Transfer

namespace Shared

variable {P : Type} [DecidableEq P] {s s' : Shared P} {p : P} {pc : SharePc} {i : Word}
  {content : List Byte}

def replay (content : List Byte) (transfers : List (Transfer P)) : List Byte :=
  transfers.foldl Transfer.apply content

def Matches (i : Word) (content : List Byte) (s s' : Shared P) : Prop :=
  s'.file.ip = s.file.ip ∧
  ∃ new, new.length ≤ 1 ∧ s'.transfers = s.transfers ++ new ∧ (∀ t ∈ new, t.Right content) ∧
    s'.fs.Stored s.file.ip i (replay content new)

omit [DecidableEq P] in
theorem matches_of_same (ip : s'.file.ip = s.file.ip) (same : s'.transfers = s.transfers)
    (stored : s'.fs.Stored s.file.ip i content) : Matches i content s s' :=
  ⟨ip, [], Nat.zero_le 1, same.trans (List.append_nil _).symm, nofun, stored⟩

omit [DecidableEq P] in
theorem matches_of_transfer {t : Transfer P} (ip : s'.file.ip = s.file.ip)
    (added : s'.transfers = s.transfers ++ [t]) (right : t.Right content)
    (stored : s'.fs.Stored s.file.ip i (t.apply content)) : Matches i content s s' := by
  refine ⟨ip, [t], Nat.le_refl 1, added, fun t' member => ?_, stored⟩
  rw [List.mem_singleton.mp member]
  exact right

section

variable (inv : s.Inv) (stored : s.fs.Stored s.file.ip i content)
include inv stored

theorem matches_lock (taken : s.lock p pc = .ok s') : Matches i content s s' := by
  obtain ⟨⟨_, fs⟩, locked, rest⟩ := Transition.bind_ok.mp taken
  cases rest
  obtain ⟨-, rfl⟩ := (Fs.wp_ilock_valid inv.regular.2.1).ok locked
  exact matches_of_same rfl rfl (stored.setBusy true)

omit inv in
theorem matches_unlock (taken : s.unlock p pc = .ok s') : Matches i content s s' := by
  obtain ⟨⟨_, fs⟩, unlocked, rest⟩ := Transition.bind_ok.mp taken
  cases rest
  obtain rfl := Fs.wp_iunlock_free.ok unlocked
  exact matches_of_same rfl rfl (stored.setBusy false)

omit inv in
theorem matches_beginOp (taken : s.beginOp p pc = .ok s') : Matches i content s s' := by
  obtain ⟨⟨_, fs⟩, begun, rest⟩ := Transition.bind_ok.mp taken
  cases rest
  obtain rfl := Fs.wp_beginOp.ok begun
  exact matches_of_same rfl rfl (stored.setLog (s.fs.outstanding + 1) s.fs.logged)

omit inv in
theorem matches_endOp (taken : s.endOp p pc = .ok s') : Matches i content s s' := by
  obtain ⟨⟨_, fs⟩, ended, rest⟩ := Transition.bind_ok.mp taken
  cases rest
  cases ended
  exact matches_of_same rfl rfl (stored.setLog _ _)

theorem matches_readInode {n : Word} (taken : s.readInode p n = .ok s') :
    Matches i content s s' := by
  obtain ⟨⟨r, fs⟩, read, rest⟩ := Transition.bind_ok.mp taken
  obtain ⟨rfl, result⟩ := (stored.wp_read (not_device inv.regular)).ok read
  cases r with
  | error bytes =>
    cases rest
    exact matches_of_same rfl rfl stored
  | ok bytes =>
    cases rest
    exact matches_of_transfer rfl rfl (result bytes rfl) stored

theorem matches_writeInode {src : List Byte} {k : Nat} (here : s.pc p = .writeLocked src k)
    (taken : s.writeInode p src k = .ok s') : Matches i content s s' := by
  obtain ⟨⟨r, fs⟩, wrote, rest⟩ := Transition.bind_ok.mp taken
  have running : 0 < s.fs.outstanding := by
    have member : p ∈ s.operations := inv.operating p (by rw [here]; rfl)
    exact Nat.lt_of_lt_of_le (List.length_pos_of_mem member) inv.running
  have size : maxBytes = 6656 := rfl
  have piece : chunk src k = min (src.length - k) maxBytes := rfl
  have number : (BitVec.ofNat 32 (chunk src k)).toNat = chunk src k := by
    rw [toNat_ofNat, Nat.mod_eq_of_lt (by omega)]
  have length : ((src.drop k).take (chunk src k)).length =
      (BitVec.ofNat 32 (chunk src k)).toNat := by
    rw [number, List.length_take, List.length_drop]
    omega
  rcases (stored.wp_write (not_device inv.regular) length running).ok wrote with
    ⟨rfl, rfl⟩ | ⟨rfl, stored'⟩
  · cases rest
    exact matches_of_same rfl rfl stored
  · have nonneg : ¬ (chunk src k : Int) < 0 := by omega
    rw [number] at rest
    dsimp only at rest
    rw [if_neg nonneg, Int.toNat_natCast] at rest
    cases rest
    exact matches_of_transfer rfl rfl trivial stored'

theorem matches_advance (taken : s.advance p = .ok s') : Matches i content s s' := by
  unfold Shared.advance at taken
  cases here : s.pc p <;> rw [here] at taken <;> dsimp only at taken
  case idle => cases taken
  case read => exact matches_lock inv stored taken
  case readLocked => exact matches_readInode inv stored taken
  case readDone =>
    cases taken
    exact matches_of_same rfl rfl stored
  case readUnlock => exact matches_unlock stored taken
  case write =>
    split at taken
    · cases taken
      exact matches_of_same rfl rfl stored
    · exact matches_beginOp stored taken
  case writeBegun => exact matches_lock inv stored taken
  case writeLocked => exact matches_writeInode inv stored here taken
  case writeDone =>
    cases taken
    exact matches_of_same rfl rfl stored
  case writeUnlock => exact matches_unlock stored taken
  case writeEnd =>
    rw [turn] at taken
    split at taken
    · exact matches_endOp stored taken
    · split at taken
      · cases taken
      · exact matches_endOp stored taken

end

def Moves (s : Shared P) (action : ShareAction P) : Prop :=
  (∀ fs, action ≠ .others fs) → ∀ s' i content, s.step action = .ok s' →
    s.fs.Stored s.file.ip i content → Matches i content s s'

theorem moves (inv : s.Inv) (action : ShareAction P) : s.Moves action := by
  intro own s' i content taken stored
  cases action with
  | others fs => exact absurd rfl (own fs)
  | advance p => exact matches_advance inv stored taken
  | read p n =>
    rw [step] at taken
    split at taken
    · cases taken
      split <;> exact matches_of_same rfl rfl stored
    · cases taken
  | write p src =>
    rw [step] at taken
    split at taken
    · cases taken
      split <;> exact matches_of_same rfl rfl stored
    · cases taken

/-- Other processes leave the contents of the file, and the file system in order. -/
def Leaves (i : Word) (s : Shared P) : ShareAction P → Prop
  | .others fs => ∀ s' content, s.others fs = .ok s' → s.fs.Stored s.file.ip i content →
      s'.fs.Stored s.file.ip i content
  | _ => True

structure Replayed (i : Word) (content : List Byte) (s : Shared P) : Prop where
  stored : s.fs.Stored s.file.ip i (replay content s.transfers)
  right : ∀ before t after, s.transfers = before ++ t :: after → t.Right (replay content before)

omit [DecidableEq P] in
theorem replay_append (content : List Byte) (first second : List (Transfer P)) :
    replay content (first ++ second) = replay (replay content first) second :=
  List.foldl_append

theorem Replayed.step {action : ShareAction P} (replayed : Replayed i content s) (inv : s.Inv)
    (leaves : s.Leaves i action) (taken : s.step action = .ok s') : Replayed i content s' := by
  by_cases own : ∀ fs, action ≠ .others fs
  · obtain ⟨ip, new, few, added, right, stored⟩ := moves inv action own s' i _ taken replayed.stored
    refine ⟨?_, ?_⟩
    · rw [ip, added, replay_append]
      exact stored
    · rw [added]
      intro before t after split
      match new, few with
      | [], _ =>
        rw [List.append_nil] at split
        exact replayed.right before t after split
      | [last], _ =>
        rcases List.eq_nil_or_concat after with rfl | ⟨rest, final, rfl⟩
        · obtain ⟨rfl, same⟩ := List.append_inj' split rfl
          rw [← (List.cons.inj same).1]
          exact right last List.mem_cons_self
        · rw [List.concat_eq_append, ← List.cons_append, ← List.append_assoc] at split
          exact replayed.right before t rest (List.append_inj' split rfl).1
  · obtain ⟨fs, isOthers⟩ := not_forall.mp own
    obtain rfl := not_not.mp isOthers
    obtain ⟨file, transfers⟩ : s'.file = s.file ∧ s'.transfers = s.transfers := by
      change s.others fs = .ok s' at taken
      rw [others] at taken
      split at taken
      · cases taken
      · split at taken
        · cases taken
          exact ⟨rfl, rfl⟩
        · split at taken
          · cases taken
            exact ⟨rfl, rfl⟩
          · cases taken
    refine ⟨?_, ?_⟩
    · rw [file, transfers]
      exact leaves s' _ taken replayed.stored
    · rw [transfers]
      exact replayed.right

/-- In every state that processes reach which share a file, in any order of their steps: each
transfer through the file starts where the one before it ended, so no two overlap; `f->off` is the
number of bytes transferred, except for those that the process with the lock is about to add; the
transfers of a call of `filewrite` are its bytes in their order, and with at most one chunk a single
transfer of them all. Each step that records a transfer has read the bytes that the file had at the
offset, or has replaced them, and other steps have not changed the contents. When nobody else does,
the file has the contents that the transfers make of the first ones: no update is lost. -/
theorem offset_counts {start : Shared P} {actions : List (ShareAction P)} (opened : start.Opened)
    (reached : Transition.run step start actions = .ok s) :
    Consecutive s.transfers ∧
    (s.transfers.Pairwise fun a b => a.start.toNat + a.count ≤ b.start.toNat) ∧
    s.file.off.toNat + s.pending = total s.transfers ∧
    (s.holder = none → s.file.off.toNat = total s.transfers) ∧
    (∀ t ∈ s.transfers, ∀ src, t.request = .write src → Whole s.transfers t src) ∧
    Transition.Along step Moves start actions ∧
    ∀ i content, start.fs.Stored start.file.ip i content →
      Transition.Along step (Leaves i) start actions → Replayed i content s := by
  have inv : s.Inv := Transition.run_invariant Inv (fun _ _ _ inv taken => inv.step taken)
    opened.inv reached
  refine ⟨inv.consecutive, inv.consecutive.disjoint, inv.counted, fun free => ?_, inv.whole, ?_, ?_⟩
  · have counted := inv.counted
    rw [pending, free] at counted
    exact counted
  · exact Transition.along_of_invariant Inv (fun _ _ _ inv taken => inv.step taken)
      (fun _ _ inv => moves inv _) opened.inv actions
  · intro i content stored leaves
    have first : Replayed i content start := by
      refine ⟨?_, ?_⟩ <;> rw [opened.fresh]
      · exact stored
      · intro before t after split
        exact absurd split.symm (List.append_ne_nil_of_right_ne_nil _ (List.cons_ne_nil _ _))
    exact (Transition.run_invariant_along (fun s => s.Inv ∧ Replayed i content s)
      (fun _ _ _ holds leaves taken => ⟨holds.1.step taken, holds.2.step holds.1 leaves taken⟩)
      ⟨opened.inv, first⟩ leaves reached).2

def pairFs : Fs :=
  (Fs.small 6 fun _ => 0x41414141).put 2 ⟨rootDev, 2, 1, false, true, Fs.smallDinode 6 2⟩

theorem pairFs_wf : pairFs.Wf :=
  (Fs.small_wf 6 _).put_entry (fun _ => rfl) (fun _ _ => by decide) fun _ => by decide +kernel

theorem pairFs_view : pairFs.view = (Fs.small 6 fun _ => 0x41414141).view := by
  refine (Fs.small_wf 6 _).view_entry pairFs_wf (.inr ⟨nofun, fun _ _ => ?_⟩)
  rw [Fs.small_onDisk]
  rfl

theorem pairFs_stored : pairFs.Stored 2 2 (List.replicate 6 0x41) where
  wf := pairFs_wf
  blocks := by
    refine ⟨(Fs.small_blocks 6 _).reserved, ?_⟩
    rw [pairFs_view]
    exact (Fs.small_blocks 6 _).exact
  held := ⟨⟨Nat.one_pos, rfl, rfl⟩, by decide⟩
  whole := by
    have size : (pairFs.view.dinode 2).size = 6 := by
      rw [pairFs_view, Fs.small_view]
      rfl
    refine ⟨fun bn inside => ?_, by rw [size]; decide⟩
    rw [size] at inside
    obtain rfl : bn = 0 := Nat.eq_zero_of_not_pos fun some =>
      absurd (Nat.mul_le_mul_right bsize some) (Nat.not_le.mpr (inside.trans (by decide)))
    rw [pairFs_view, Fs.small_addr]
    decide
  content := by decide +kernel

def pair : Shared Bool where
  fs := pairFs
  file :=
    { type := .inode
      readable := true
      writable := true
      pipe := 0
      ip := 2
      off := 0 }
  pc := fun _ => .idle
  calls := fun _ => 0
  holder := none
  operations := []
  transfers := []

def pairRun : List (ShareAction Bool) :=
  [.read false 2, .write true [1, 2, 3], .advance true] ++ List.replicate 4 (.advance false) ++
    List.replicate 5 (.advance true)

/-- `offset_counts` after the run: three bytes were replaced behind the two that were read. -/
theorem offset_counts_pair : ∃ s, Transition.run step pair pairRun = .ok s ∧ s.file.off = 5 ∧
    Consecutive s.transfers ∧ total s.transfers = 5 ∧
    s.fs.view.content 2 = [0x41, 0x41, 1, 2, 3, 0x41] := by
  obtain ⟨s, ran, shape⟩ := Transition.exists_of_ends
    (show Transition.ends (fun s => decide (s.file.off = 5 ∧ s.holder = none ∧
      replay (List.replicate 6 0x41) s.transfers = [0x41, 0x41, 1, 2, 3, 0x41]))
      (Transition.run step pair pairRun) = true by decide +kernel)
  obtain ⟨off, free, replayed⟩ := of_decide_eq_true shape
  have opened : pair.Opened := ⟨by decide, rfl, fun _ => rfl, rfl, rfl, rfl⟩
  have alone : Transition.Along step (Leaves 2) pair pairRun := by
    simp [pairRun, Transition.Along, Leaves]
  obtain ⟨consecutive, -, -, counted, -, -, contents⟩ := offset_counts opened ran
  refine ⟨s, ran, off, consecutive, ?_, ?_⟩
  · rw [← counted free, off]
    rfl
  · rw [(contents 2 _ pairFs_stored alone).stored.content, replayed]

end Shared

end Xv6
