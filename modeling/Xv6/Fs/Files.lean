import Xv6.Fs.DirMap

/-!
# Files as arrays of bytes

Calls of `readi` and `writei` on locked inodes, in any order and with any offsets and lengths,
against a store that maps an inode number to a list of bytes. Each write is an operation of its own.
A file system without holes stays one, and the calls return what the store returns, until a write
finds too few free blocks or has more blocks than the log.
-/

namespace Xv6

open Bytes (Byte)
open Program

abbrev Files := Word → List Byte

/-- A call of `readi` or `writei` with an entry of the inode cache; a write has as many bytes as it
says. -/
inductive FileOp where
  | read (ip : InodePtr) (off n : Word)
  | write (ip : InodePtr) (off n : Word) (src : List Byte) (length : src.length = n.toNat)

namespace FileOp

abbrev Result := Fs.ReadResult ⊕ Int

def ip : FileOp → InodePtr
  | read ip _ _ => ip
  | write ip _ _ _ _ => ip

def run : FileOp → FsM Result
  | read ip off n => do return .inl (← Fs.readi ip off n)
  | write ip off n src _ => do return .inr (← Fs.transaction (Fs.writei ip src off n))

def runAll : List FileOp → FsM (List Result)
  | [] => return []
  | op :: rest => do
    let result ← op.run
    return result :: (← runAll rest)

/-- The call on the store: a range is read that starts in the file and does not wrap, and one is
written that starts in the file and ends within the maximum. -/
def apply (inum : InodePtr → Word) (files : Files) : FileOp → Result × Files
  | read ip off n =>
    let bytes := files (inum ip)
    (.inl (if off.toNat ≤ bytes.length ∧ off.toNat + n.toNat < 2 ^ 32 then
      .ok ((bytes.drop off.toNat).take n.toNat) else .error []), files)
  | write ip off n src _ =>
    let bytes := files (inum ip)
    if off.toNat ≤ bytes.length ∧ off.toNat + n.toNat ≤ maxfile * bsize then
      (.inr n.toNat, Function.update files (inum ip) (Volume.splice bytes off.toNat src))
    else (.inr (-1), files)

def applyAll (inum : InodePtr → Word) (files : Files) : List FileOp → List Result × Files
  | [] => ([], files)
  | op :: rest =>
    let (result, files') := op.apply inum files
    let (results, final) := applyAll inum files' rest
    (result :: results, final)

/-- A write cannot be done: there are not more free blocks than its range misses, or the log has no
room for the blocks of its range, the bitmap and the indirect block, and then the inode. -/
def Short (fs : Fs) (fault : Fault) : FileOp → Prop
  | read _ _ _ => False
  | write ip off n _ _ =>
    fault = .panic "balloc: out of blocks" ∧
        fs.free ≤ fs.view.missing (fs.inode ip).inum off.toNat n.toNat ∨
      fault = .panic "too big a transaction" ∧
        logSize ≤ Fs.rangeBlocks off.toNat n.toNat + (fs.sb.size.toNat / bpb + 1) + 2

def Stops (fs : Fs) (fault : Fault) : List FileOp → Prop
  | [] => False
  | op :: rest => op.Short fs fault ∨
      ∃ result fs', op.run.run fs = .ok (result, fs') ∧ Stops fs' fault rest

end FileOp

namespace Fs

variable {fs fs' : Fs} {ip : InodePtr} {i i' : Word} {files : Files}

def HoldsFile (fs : Fs) (ip : InodePtr) : Prop :=
  fs.Held ip (fs.inode ip).inum ∧ (fs.inode ip).din.type ≠ tDev

def inums (fs : Fs) (ip : InodePtr) : Word := (fs.inode ip).inum

structure Stores (fs : Fs) (files : Files) : Prop where
  wf : fs.Wf
  blocks : fs.Blocks
  quiet : fs.Quiet
  file : ∀ i, fs.view.Live i → fs.view.HoleFree i ∧ fs.view.content i = files i

structure Keeps (fs fs' : Fs) : Prop where
  inums : fs'.inums = fs.inums
  holds : ∀ ip, fs.HoldsFile ip → fs'.HoldsFile ip
  live : ∀ i, fs'.view.Live i ↔ fs.view.Live i

theorem Keeps.refl (fs : Fs) : Keeps fs fs := ⟨rfl, fun _ holds => holds, fun _ => .rfl⟩

theorem Works.ended (works : Works fs.begun ip i fs') (quiet : fs.Quiet) :
    Works fs ip i fs'.ended where
  wf := works.wf.ended
  blocks := ⟨works.blocks.reserved, works.blocks.exact⟩
  sb := works.sb
  outstanding := quiet.outstanding.symm
  cache := works.cache
  others := works.others

theorem Quiet.too_big {rounds : Nat} (quiet : fs.Quiet) (logs : LogsFile fs.begun fs' i rounds)
    (full : fs'.LogFull) : logSize ≤ rounds + (fs.sb.size.toNat / bpb + 1) + 2 := by
  obtain ⟨data, a, few, -, logs⟩ := logs
  have none : fs.begun.logged = [] := quiet.logged
  have length := logs.length_le (by rw [none]; exact List.nodup_nil)
  have sb : fs.begun.sb = fs.sb := rfl
  have nlog := quiet.nlog
  rw [none, List.length_nil, List.length_cons, sb] at length
  rw [LogFull, logs.sb, sb, nlog] at full
  omega

theorem Works.other (works : Works fs ip i fs') (other : i' ≠ i) (live : fs.view.Live i')
    (whole : fs.view.HoleFree i') :
    fs'.view.HoleFree i' ∧ fs'.view.content i' = fs.view.content i' := by
  have dinode := works.others.dinode other
  have addr := fun s => works.others.addr s other live
  refine ⟨⟨fun bn inside => ?_, by rw [dinode]; exact whole.size_le⟩, ?_⟩
  · rw [dinode] at inside
    rw [addr]
    exact whole.mapped bn inside
  · rw [Volume.content, Volume.content, dinode]
    refine List.map_congr_left fun off inside => ?_
    have mapped := whole.mapped_byte (List.mem_range.mp inside)
    exact Volume.byte_congr (addr _) (works.others.block _ other live mapped)

theorem Works.keeps (works : Works fs ip (fs.inums ip) fs') (wf : fs.Wf) (holds : fs.HoldsFile ip) :
    Keeps fs fs' := by
  have entry : ∀ ip', ∃ size addrs, fs'.inode ip' = { fs.inode ip' with
      din := { (fs.inode ip').din with size := size, addrs := addrs } } := by
    intro ip'
    by_cases same : ip' = ip
    · rw [same]
      exact works.inode
    · exact ⟨_, _, works.inode_of_ne same⟩
  refine ⟨funext fun ip' => ?_, fun ip' before => ?_, fun i => ?_⟩
  · obtain ⟨size, addrs, same⟩ := entry ip'
    rw [inums, same, inums]
  · obtain ⟨size, addrs, same⟩ := entry ip'
    refine ⟨⟨⟨?_, ?_, rfl⟩, ?_⟩, ?_⟩ <;> rw [same]
    exacts [before.1.ref, before.1.valid, before.1.live, before.2]
  · by_cases same : i = fs.inums ip
    · rw [same]
      exact iff_of_true ((works.held holds.1).live_view works.wf) (holds.1.live_view wf)
    · exact works.others.live same

theorem Stores.length (stores : fs.Stores files) (holds : fs.HoldsFile ip) :
    (files (fs.inums ip)).length = (fs.inode ip).din.size.toNat := by
  rw [inums, ← (stores.file _ (holds.1.live_view stores.wf)).2, Volume.length_content,
    stores.wf.view_dinode holds.1.toCopies]

theorem Stores.wp_run (stores : fs.Stores files) {op : FileOp} (holds : fs.HoldsFile op.ip) :
    Wp op.run (fun result fs' => result = (op.apply fs.inums files).1 ∧
      fs'.Stores (op.apply fs.inums files).2 ∧ Keeps fs fs') (op.Short fs) fs := by
  cases op with
  | read ip off n =>
    change fs.HoldsFile ip at holds
    obtain ⟨whole, content⟩ := stores.file _ (holds.1.live_view stores.wf)
    have start : off.toNat ≤ (files (fs.inums ip)).length ↔ off ≤ (fs.inode ip).din.size := by
      rw [stores.length holds]
      rfl
    rw [FileOp.run, wp_bind]
    refine wp_readi stores.wf stores.blocks holds.1 holds.2 whole (fun bad => ?_)
      fun inside straight => ?_
    · refine ⟨congrArg _ (if_neg ?_).symm, stores, .refl fs⟩
      rintro ⟨inside, straight⟩
      rw [← BitVec.not_le, ← start, BitVec.lt_def, BitVec.toNat_add,
        Nat.mod_eq_of_lt straight] at bad
      exact bad.elim (absurd inside) (by omega)
    · refine ⟨congrArg _ ?_, stores, .refl fs⟩
      rw [content]
      exact (if_pos ⟨start.mpr inside, straight⟩).symm
  | write ip off n src length =>
    change fs.HoldsFile ip at holds
    obtain ⟨whole, content⟩ := stores.file (fs.inums ip) (holds.1.live_view stores.wf)
    have fits : (off.toNat ≤ (files (fs.inums ip)).length ∧
        off.toNat + n.toNat ≤ maxfile * bsize) ↔ fs.Fits ip off n := by
      rw [stores.length holds]
      rfl
    have held : fs.begun.Held ip (fs.inums ip) :=
      ⟨⟨holds.1.ref, holds.1.valid, rfl⟩, holds.1.live⟩
    rw [FileOp.run, wp_bind]
    refine stores.quiet.wp_transaction (wp_writei stores.wf.begun
      ⟨stores.blocks.reserved, stores.blocks.exact⟩ held holds.2 whole length
      (fun bad => ⟨rfl, ?_⟩) Nat.one_pos (fun fs' logs full => .inr ⟨rfl, ?_⟩)
      (fun _ short => .inl ⟨rfl, Nat.le_trans (Nat.le_add_right _ _) short⟩)
      fun fs' good wrote => ⟨wrote.works.outstanding, ?_⟩)
    · have works := (Works.refl (i := fs.inums ip) stores.wf.begun
        ⟨stores.blocks.reserved, stores.blocks.exact⟩ ip).ended stores.quiet
      rw [wp_pure, FileOp.apply, if_neg fun good => bad (fits.mp good)]
      exact ⟨rfl, ⟨works.wf, works.blocks, ⟨rfl, rfl, stores.quiet.nlog⟩, stores.file⟩,
        works.keeps stores.wf holds⟩
    · exact stores.quiet.too_big logs full
    · have works := wrote.works.ended stores.quiet
      have keeps := works.keeps stores.wf holds
      rw [wp_pure, FileOp.apply, if_pos (fits.mpr good)]
      refine ⟨rfl, ⟨works.wf, works.blocks, ⟨rfl, rfl, works.sb ▸ stores.quiet.nlog⟩,
        fun i live => ?_⟩, keeps⟩
      dsimp only
      by_cases same : i = fs.inums ip
      · rw [same, Function.update_self, ← content]
        exact ⟨wrote.whole, wrote.content⟩
      · have before := (keeps.live i).mp live
        obtain ⟨hole, bytes⟩ := stores.file i before
        rw [Function.update_of_ne same, ← bytes]
        exact works.other same before hole

/-- Files are independent arrays of bytes. Whatever the calls on locked inodes, they return what
the store of bytes returns, and the files are then those of the store, with the same inodes
allocated. They stop only at a write for which there are too few free blocks, or too few in the
log. -/
theorem files_are_byte_arrays (stores : fs.Stores files) (ops : List FileOp)
    (locked : ∀ op ∈ ops, fs.HoldsFile op.ip) :
    Wp (FileOp.runAll ops) (fun results fs' =>
      results = (FileOp.applyAll fs.inums files ops).1 ∧
      fs'.Stores (FileOp.applyAll fs.inums files ops).2 ∧ Keeps fs fs')
      (fun stopped => FileOp.Stops fs stopped ops) fs := by
  induction ops generalizing fs files with
  | nil => exact ⟨rfl, stores, .refl fs⟩
  | cons op rest ih =>
    obtain ⟨first, others⟩ := List.forall_mem_cons.mp locked
    have one := stores.wp_run first
    rw [FileOp.runAll, wp_bind]
    refine wp_of_forall (fun result fs₁ ran => ?_) fun stopped ran => ?_
    · obtain ⟨same, stores₁, keeps⟩ := one.ok ran
      have later := ih stores₁ fun op member => keeps.holds _ (others op member)
      rw [keeps.inums] at later
      rw [wp_bind]
      refine later.mono (fun results fs₂ after => ?_) fun stopped stops => ?_
      · obtain ⟨equal, stores₂, keeps₂⟩ := after
        refine ⟨?_, stores₂, keeps₂.inums.trans keeps.inums,
          fun ip holds => keeps₂.holds ip (keeps.holds ip holds),
          fun i => (keeps₂.live i).trans (keeps.live i)⟩
        rw [equal, same]
        rfl
      · exact .inr ⟨result, fs₁, ran, stops⟩
    · exact .inl (one.error ran)

theorem small_stores : (small 0 fun _ => 0).Stores (small 0 fun _ => 0).view.content where
  wf := small_wf ..
  blocks := small_blocks ..
  quiet := small_quiet ..
  file i _ := by
    refine ⟨?_, rfl⟩
    by_cases root : i = 1
    · have size : ((small 0 fun _ => 0).view.dinode i).size = 48 := by
        rw [small_view, root]
        rfl
      refine ⟨fun bn inside => ?_, by rw [size]; decide⟩
      rw [size] at inside
      obtain rfl : bn = 0 := Nat.eq_zero_of_not_pos fun some =>
        absurd (Nat.mul_le_mul_right bsize some) (Nat.not_le.mpr (inside.trans (by decide)))
      rw [small_addr, root]
      decide
    · have number : i.toNat ≠ 1 := fun same => root (BitVec.eq_of_toNat_eq same)
      have size : ((small 0 fun _ => 0).view.dinode i).size = 0 := by
        rw [small_view, smallDinode, if_neg number]
        split_ifs <;> rfl
      exact ⟨fun bn inside => absurd (size ▸ inside) (Nat.not_lt_zero _), by rw [size]; decide⟩

/-- Bytes are written into an empty file and read back, and others are read from another file. -/
def smallFileOps : List FileOp :=
  [.write 1 0 2 [0xAA, 0xBB] rfl, .read 1 1 5, .read 0 16 2, .read 0 49 1]

attribute [local irreducible] Wp

/-- Reads and writes in the small file system. -/
theorem files_are_byte_arrays_small : (∀ op ∈ smallFileOps, (small 0 fun _ => 0).HoldsFile op.ip) ∧
    Wp (FileOp.runAll smallFileOps) (fun results _ => results =
      (FileOp.applyAll (small 0 fun _ => 0).inums (small 0 fun _ => 0).view.content smallFileOps).1)
      (fun stopped => FileOp.Stops (small 0 fun _ => 0) stopped smallFileOps)
      (small 0 fun _ => 0) ∧
    ((FileOp.runAll smallFileOps).run (small 0 fun _ => 0)).toOption.map Prod.fst =
      some [.inr 2, .inl (.ok [0xBB]), .inl (.ok [1, 0]), .inl (.error [])] := by
  have locked : ∀ op ∈ smallFileOps, (small 0 fun _ => 0).HoldsFile op.ip := by
    have root : (small 0 fun _ => 0).HoldsFile 0 :=
      ⟨⟨⟨Nat.one_pos, rfl, rfl⟩, by decide⟩, by decide⟩
    have other : (small 0 fun _ => 0).HoldsFile 1 := ⟨small_held .., by decide⟩
    simp only [smallFileOps, List.forall_mem_cons]
    exact ⟨other, other, root, root, by rintro _ ⟨⟩⟩
  have served := files_are_byte_arrays small_stores smallFileOps locked
  exact ⟨locked, served.imp fun _ _ after => after.1, by decide +kernel⟩

end Fs

end Xv6
