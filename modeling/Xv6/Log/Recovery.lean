import Xv6.Library.Run
import Xv6.Log.Disk

/-!
# Crash atomicity of the log

The log of `log.c` is a redo log: its commit and its recovery issue the writes of the abstract
protocol. A crash keeps a prefix of the writes that were issued; recovery may crash as well, any
number of times, before one recovery completes.
-/

namespace Xv6

open Store (copy_eq bwrites_bread boot bread_boot bwrites_disk)
open RedoLog

def InLog (start : BlockNo) (size : Int) (b : BlockNo) : Prop :=
  ∃ j : Nat, (j : Int) < size ∧ b = start + BitVec.ofNat 32 j

/-- Whether a block is in the log region is decided by its offset. -/
instance InLog.decidable (start : BlockNo) (size : Int) (b : BlockNo) :
    Decidable (InLog start size b) :=
  decidable_of_iff (∃ j : Fin size.toNat, b = start + BitVec.ofNat 32 j) ⟨
    fun ⟨j, same⟩ => ⟨j, by omega, same⟩, fun ⟨j, bound, same⟩ => ⟨⟨j, by omega⟩, same⟩⟩

structure Loggable (start : BlockNo) (size : Int) (lh : List BlockNo) : Prop where
  distinct : lh.Nodup
  fits : (lh.length : Int) ≤ size - 1
  bounded : lh.length ≤ logSize
  outside : ∀ b ∈ lh, ¬ InLog start size b

def logLayout (start : BlockNo) : Layout BlockNo Block where
  header := start
  slot := logBlock start
  listed := fun buf => (readHead buf).toOption

theorem logBlock_eq (start : BlockNo) (tail : Nat) :
    logBlock start tail = start + BitVec.ofNat 32 (tail + 1) := by
  rw [logBlock, BitVec.ofNat_add, BitVec.add_assoc]
  rfl

theorem offset_injective (start : BlockNo) {i j : Nat} (boundI : i < 2 ^ 32) (boundJ : j < 2 ^ 32)
    (same : start + BitVec.ofNat 32 i = start + BitVec.ofNat 32 j) : i = j := by
  have offsets := congrArg BitVec.toNat ((BitVec.add_right_inj start).mp same)
  rwa [BitVec.toNat_ofNat, BitVec.toNat_ofNat, Nat.mod_eq_of_lt boundI,
    Nat.mod_eq_of_lt boundJ] at offsets

namespace Loggable

variable {start : BlockNo} {size : Int} {lh : List BlockNo}

theorem inLog (loggable : Loggable start size lh) {i : Nat} (bound : i < lh.length) :
    InLog start size (logBlock start i) := by
  have fits := loggable.fits
  exact ⟨i + 1, by omega, logBlock_eq start i⟩

theorem inLog_start (loggable : Loggable start size lh) : InLog start size start := by
  have fits := loggable.fits
  exact ⟨0, by omega, by simp⟩

def transaction (loggable : Loggable start size lh) (new : BlockNo → Block) :
    Transaction (logLayout start) where
  homes := lh
  new := new
  distinct := loggable.distinct
  slots := by
    intro i boundI j boundJ same
    have bounded : lh.length ≤ 30 := loggable.bounded
    simp only [logLayout, logBlock_eq] at same
    have offsets := offset_injective start (by omega) (by omega) same
    omega
  header := by
    intro i bound same
    have bounded : lh.length ≤ 30 := loggable.bounded
    have zero : start = start + BitVec.ofNat 32 0 := by simp
    simp only [logLayout, logBlock_eq] at same
    have offsets := offset_injective start (by omega) (by omega) (same.trans zero)
    omega
  headerHome := fun member => loggable.outside _ member loggable.inLog_start
  slotHome := fun _ bound member => loggable.outside _ member (loggable.inLog bound)

end Loggable

theorem listed_fillHead {start : BlockNo} {lh : List BlockNo} (bounded : lh.length ≤ logSize)
    (buf : Block) : (logLayout start).listed (fillHead buf lh) = some lh := by
  simp only [logLayout, readHead_fillHead buf bounded]
  rfl

theorem listed_eq_some {start : BlockNo} {buf : Block} {lh : List BlockNo} :
    (logLayout start).listed buf = some lh ↔ readHead buf = .ok lh := by
  cases read : readHead buf <;> simp [logLayout, read, Except.toOption]

theorem readHead_zero {buf : Block} (empty : buf 0 = 0) : readHead buf = .ok [] := by
  simp [readHead, empty, logSize, maxOpBlocks]

def clearHead (buf : Block) : Block := fillHead buf []

theorem writeLog_writes {start : BlockNo} {lh : List BlockNo}
    (slotHome : ∀ i < lh.length, logBlock start i ∉ lh) (s : Store) :
    writeLog start 0 lh s = s.bwrites (lh.mapIdx fun i src => (logBlock start i, s.bread src)) := by
  rw [writeLog_copy, copy_eq]
  · congr 1
    apply List.ext_getElem (by simp)
    simp
  · intro written inWritten source inSource same
    obtain ⟨i, bound, rfl⟩ := List.mem_mapIdx.mp inWritten
    obtain ⟨j, bound', rfl⟩ := List.mem_mapIdx.mp inSource
    simp only [Nat.zero_add] at same
    exact slotHome i bound (same ▸ List.getElem_mem bound')

theorem installTrans_writes {start : BlockNo} {lh : List BlockNo}
    (slotHome : ∀ i < lh.length, logBlock start i ∉ lh) (s : Store) :
    installTrans start 0 lh s =
      s.bwrites (lh.mapIdx fun i dst => (dst, s.bread (logBlock start i))) := by
  rw [installTrans_copy, copy_eq]
  · congr 1
    apply List.ext_getElem (by simp)
    simp
  · intro written inWritten source inSource same
    obtain ⟨i, bound, rfl⟩ := List.mem_mapIdx.mp inWritten
    obtain ⟨j, bound', rfl⟩ := List.mem_mapIdx.mp inSource
    simp only [Nat.zero_add] at same
    exact slotHome j bound' (same ▸ List.getElem_mem bound)

theorem writeHead_writes (start : BlockNo) (lh : List BlockNo) (s : Store) :
    writeHead start lh s = s.bwrites [(start, fillHead (s.bread start) lh)] := rfl

theorem Loggable.commit_eq {start : BlockNo} {size : Int} {lh : List BlockNo}
    (loggable : Loggable start size lh) (nonempty : 0 < lh.length) (s : Store) :
    ∃ buf, commit start lh s = s.bwrites ((loggable.transaction s.bread).commitWrites
      (fillHead buf lh) (clearHead (fillHead buf lh))) := by
  let t := loggable.transaction s.bread
  have slotHome : ∀ i < lh.length, logBlock start i ∉ lh := t.slotHome
  let logged := s.bwrites t.slotWrites
  let buf := logged.bread start
  let headed := logged.bwrites [(start, fillHead buf lh)]
  have writes : writeLog start 0 lh s = logged := writeLog_writes slotHome s
  have slots : ∀ i (bound : i < lh.length), headed.bread (logBlock start i) = s.bread lh[i] := by
    intro i bound
    have other : logBlock start i ≠ start := t.header i bound
    simp only [headed, logged, bwrites_bread, apply_cons, apply_nil,
      Function.update_of_ne other]
    exact Transaction.slotWrites_logged (t := t) s.bread i bound
  have installs : installTrans start 0 lh headed = headed.bwrites t.homeWrites := by
    rw [installTrans_writes slotHome]
    congr 1
    apply List.ext_getElem (by simp [Transaction.homeWrites, t, Loggable.transaction])
    intro i bound _
    simp only [List.length_mapIdx] at bound
    simp [slots i bound, Transaction.homeWrites, t, Loggable.transaction]
  have header : (headed.bwrites t.homeWrites).bread start = fillHead buf lh := by
    rw [bwrites_bread, apply_absent]
    · simp [headed]
    · intro write member same
      obtain ⟨home, isHome, rfl⟩ := List.mem_map.mp member
      simp only at same
      rw [same] at isHome
      exact t.headerHome isHome
  refine ⟨buf, ?_⟩
  rw [commit, if_pos nonempty, writes]
  simp only [writeHead_writes start lh]
  rw [installs, writeHead_writes, header, Transaction.commitWrites]
  simp only [headed, logged, ← Store.bwrites_append, List.append_assoc]
  rfl

theorem recoverFromLog_eq {start : BlockNo} {disk : BlockNo → Block} {lh : List BlockNo}
    (read : readHead (disk start) = .ok lh) (headerHome : start ∉ lh)
    (slotHome : ∀ i < lh.length, logBlock start i ∉ lh) :
    recoverFromLog start (boot disk) =
      .ok ((boot disk).bwrites ((logLayout start).recovery clearHead disk)) := by
  have listed : (logLayout start).listed (disk start) = some lh := listed_eq_some.mpr read
  have header : ((boot disk).bwrites (lh.mapIdx fun i dst =>
      (dst, disk (logBlock start i)))).bread start = disk start := by
    rw [bwrites_bread, apply_absent, bread_boot]
    intro write member same
    obtain ⟨i, bound, rfl⟩ := List.mem_mapIdx.mp member
    exact headerHome (same ▸ List.getElem_mem bound)
  have installs := installTrans_writes slotHome (boot disk)
  rw [bread_boot] at installs
  rw [recoverFromLog, bread_boot, read]
  change Except.ok (writeHead start [] (installTrans start 0 lh (boot disk))) = _
  rw [installs, writeHead_writes, header, ← Store.bwrites_append]
  simp only [Layout.recovery, show (logLayout start).header = start from rfl, listed]
  rfl

/-- A crash of `recover_from_log` after a boot that lets only its first `cut` writes reach the
disk. -/
def crashRecovery (start : BlockNo) (disk : BlockNo → Block) (cut : Nat) :
    Except Fault (BlockNo → Block) := do
  let s ← recoverFromLog start (Store.boot disk)
  return apply disk (s.writes.take cut)

variable {old disk : BlockNo → Block}

theorem recoverFromLog_phase {start : BlockNo} {t : Transaction (logLayout start)}
    (phase : t.Before old disk ∨ t.Committed old disk ∨ t.After old disk) :
    recoverFromLog start (boot disk) =
      .ok ((boot disk).bwrites ((logLayout start).recovery clearHead disk)) := by
  rcases phase with before | committed | after
  · exact recoverFromLog_eq (listed_eq_some.mp before.header) (by simp) (by simp)
  · exact recoverFromLog_eq (listed_eq_some.mp committed.header) t.headerHome t.slotHome
  · exact recoverFromLog_eq (listed_eq_some.mp after.header) (by simp) (by simp)

theorem crashRecovery_phase {start : BlockNo} {t : Transaction (logLayout start)}
    (phase : t.Before old disk ∨ t.Committed old disk ∨ t.After old disk) (cut : Nat) :
    crashRecovery start disk cut =
      .ok (apply disk (((logLayout start).recovery clearHead disk).take cut)) := by
  rw [crashRecovery, recoverFromLog_phase phase]
  simp [boot, bind, Except.bind, pure, Except.pure]

theorem listed_clearHead (start : BlockNo) (buf : Block) :
    (logLayout start).listed (clearHead buf) = some [] :=
  listed_fillHead (by simp) buf

theorem recovered_before {start : BlockNo} {t : Transaction (logLayout start)}
    (before : t.Before old disk) (cuts : List Nat) :
    ∃ crashed final, Transition.run (crashRecovery start) disk cuts = .ok crashed ∧
      recoverFromLog start (boot crashed) = .ok final ∧ t.Before old final.disk ∧
      final.disk start 0 = 0 := by
  have cleared := listed_clearHead start
  obtain ⟨crashed, ran, before⟩ := Transition.run_total (t.Before old)
    (fun _ cut before => ⟨_, crashRecovery_phase (.inl before) cut,
      before.recovery_cut cleared cut⟩) before cuts
  have whole := before.recovery_cut cleared ((logLayout start).recovery clearHead crashed).length
  rw [List.take_length] at whole
  refine ⟨crashed, _, ran, recoverFromLog_phase (.inl before), ?_, ?_⟩
  · rwa [bwrites_disk]
  · rw [bwrites_disk]
    exact congrFun ((logLayout start).recovery_header clearHead crashed) 0

theorem recovered_after {start : BlockNo} {t : Transaction (logLayout start)}
    (kept : t.Committed old disk ∨ t.After old disk) (cuts : List Nat) :
    ∃ crashed final, Transition.run (crashRecovery start) disk cuts = .ok crashed ∧
      recoverFromLog start (boot crashed) = .ok final ∧ t.After old final.disk ∧
      final.disk start 0 = 0 := by
  have cleared := listed_clearHead start
  obtain ⟨crashed, ran, kept⟩ := Transition.run_total
    (fun disk => t.Committed old disk ∨ t.After old disk)
    (fun _ cut kept => ⟨_, crashRecovery_phase (.inr kept) cut,
      Transaction.Committed.recovery_cut kept cleared cut⟩) kept cuts
  refine ⟨crashed, _, ran, recoverFromLog_phase (.inr kept), ?_, ?_⟩
  · rw [bwrites_disk]
    exact Transaction.Committed.recovery kept cleared
  · rw [bwrites_disk]
    exact congrFun ((logLayout start).recovery_header clearHead crashed) 0

def HeadReached (start : BlockNo) (n : Nat) (writes : List (BlockNo × Block)) : Prop :=
  ∃ head, (start, head) ∈ writes ∧ head 0 = BitVec.ofNat 32 n

/-- **Crash atomicity.** A crash at any write of `commit`, followed by recoveries that crash at
any of their writes and by one that completes, leaves all home blocks new if the first
`write_head` reached the disk and all of them old if not; no other block outside the log
changes, and the header ends up empty. -/
theorem commit_crash_atomic (start : BlockNo) (size : Int) (lh : List BlockNo)
    (disk : BlockNo → Block) (cache : BlockNo → Option Block) (empty : disk start 0 = 0)
    (loggable : Loggable start size lh) (nonempty : 0 < lh.length) (cut : Nat)
    (cuts : List Nat) :
    let s : Store := ⟨disk, cache, []⟩
    let reached := (commit start lh s).writes.take cut
    ∃ crashed final, Transition.run (crashRecovery start) (apply disk reached) cuts = .ok crashed ∧
      recoverFromLog start (Store.boot crashed) = .ok final ∧
      (HeadReached start lh.length reached → ∀ b ∈ lh, final.disk b = s.bread b) ∧
      (¬ HeadReached start lh.length reached → ∀ b ∈ lh, final.disk b = disk b) ∧
      (∀ b, ¬ InLog start size b → b ∉ lh → final.disk b = disk b) ∧
      final.disk start 0 = 0 := by
  intro s reached
  let t := loggable.transaction s.bread
  obtain ⟨buf, committed⟩ := loggable.commit_eq nonempty s
  have before : t.Before disk disk := ⟨listed_eq_some.mpr (readHead_zero empty), fun _ _ => rfl⟩
  have cutWrites := before.commit_cut (listed_fillHead loggable.bounded buf)
    (listed_clearHead start (fillHead buf lh)) cut
  have outside : ∀ b, ¬ InLog start size b → t.Outside b := by
    intro b notLog
    refine ⟨fun same => notLog (same ▸ loggable.inLog_start), fun i bound same => notLog ?_⟩
    rw [same]
    exact loggable.inLog bound
  have writes : reached = (t.commitWrites (fillHead buf lh)
      (clearHead (fillHead buf lh))).take cut := by
    simp only [reached, committed, Store.bwrites_writes]
    rfl
  rw [← writes] at cutWrites
  by_cases late : lh.length < cut
  · have head : HeadReached start lh.length reached := by
      refine ⟨fillHead buf lh, ?_, rfl⟩
      rw [writes]
      exact Transaction.mem_take_commitWrites late
    obtain ⟨crashed, final, ran, recovered, after, header⟩ :=
      recovered_after (cutWrites.2 late) cuts
    exact ⟨crashed, final, ran, recovered, fun _ => after.installed,
      fun missing => absurd head missing,
      fun b notLog other => after.outside b (outside b notLog) other, header⟩
  · have early : cut ≤ lh.length := by omega
    have missing : ¬ HeadReached start lh.length reached := by
      rintro ⟨head, member, _⟩
      rw [writes] at member
      exact Transaction.not_mem_take_commitWrites early member
    obtain ⟨crashed, final, ran, recovered, before, header⟩ :=
      recovered_before (cutWrites.1 early) cuts
    exact ⟨crashed, final, ran, recovered, fun head => absurd head missing,
      fun _ b member => before.outside b (outside b (loggable.outside b member)),
      fun b notLog _ => before.outside b (outside b notLog), header⟩

theorem loggable_block : Loggable 2 30 [40] where
  distinct := by decide
  fits := by decide
  bounded := by decide
  outside := by
    rintro b member ⟨j, bound, same⟩
    rw [List.mem_singleton] at member
    rw [member] at same
    have offset := congrArg BitVec.toNat same
    rw [BitVec.toNat_add, BitVec.toNat_ofNat] at offset
    simp only [BitVec.reduceToNat] at offset
    omega

/-- A block of sevens whose commit is cut behind the header write is on a zero disk after a
recovery that crashes at its second write and one that completes. -/
theorem commit_crash_atomic_block :
    let cache : BlockNo → Option Block := fun b => if b = 40 then some fun _ => 7 else none
    let reached := (commit 2 [40] ⟨fun _ _ => 0, cache, []⟩).writes.take 2
    ∃ crashed final,
      Transition.run (crashRecovery 2) (apply (fun _ _ => 0) reached) [1] = .ok crashed ∧
      recoverFromLog 2 (Store.boot crashed) = .ok final ∧ final.disk 40 = fun _ => 7 := by
  intro cache reached
  obtain ⟨crashed, final, ran, recovered, new, _⟩ := commit_crash_atomic 2 30 [40] (fun _ _ => 0)
    cache rfl loggable_block (by decide) 2 [1]
  have head : HeadReached 2 1 reached :=
    ⟨fillHead (fun _ => 0) [40], List.mem_cons_of_mem _ (List.mem_singleton.mpr rfl), rfl⟩
  exact ⟨crashed, final, ran, recovered, new head 40 (List.mem_singleton.mpr rfl)⟩

end Xv6
