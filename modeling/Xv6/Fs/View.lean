import Xv6.Fs.Icache

/-!
# The volume that the kernel sees

The inodes of the file system are those on disk, except that a valid entry of the inode cache stands
for its inode: between a change in memory and `iupdate` it is newer. With at most one entry for an
inode, changing the copy in an entry changes that inode, and writing a block changes the block.
-/

namespace Xv6

open Bytes (Byte)
open Program

namespace Fs

variable {fs fs' : Fs} {ip ip' : InodePtr} {i i' : Word} {b b' : BlockNo} {data : Block}
  {din : Dinode} {fault : Fault → Prop}

def write (fs : Fs) (b : BlockNo) (data : Block) : Fs :=
  { fs with
    disk := Function.update fs.disk b data
    logged := fs.logged.insert b }

def put (fs : Fs) (ip : InodePtr) (inode : Inode) : Fs :=
  { fs with inode := Function.update fs.inode ip inode }

@[simp]
theorem wp_bread {post : Block → Fs → Prop} :
    Wp (bread b) post fault fs ↔ post (fs.disk b) fs := Iff.rfl

variable {post : Unit → Fs → Prop}

theorem wp_logWrite (inside : 0 < fs.outstanding)
    (big : fs.LogFull → fault (.panic "too big a transaction"))
    (done : post () (fs.write b data)) : Wp (logWrite b data) post fault fs := by
  rw [logWrite, wp_bind, wp_get]
  split
  · exact big ‹_›
  · rw [if_neg (Nat.not_lt.mpr inside)]
    exact done

theorem wp_logWrite_any (done : post () (fs.write b data)) :
    Wp (logWrite b data) post (fun _ => True) fs := by
  rw [logWrite, wp_bind, wp_get]
  split
  · trivial
  · split
    · trivial
    · exact done

@[simp]
theorem wp_getInode {post : Inode → Fs → Prop} :
    Wp (getInode ip) post fault fs ↔ post (fs.inode ip) fs := Iff.rfl

@[simp]
theorem wp_setInode {inode : Inode} :
    Wp (setInode ip inode) post fault fs ↔ post () (fs.put ip inode) := Iff.rfl

def copyOf (fs : Fs) (i : Word) : Option InodePtr :=
  entries.find? fun ip =>
    decide (0 < (fs.inode ip).ref) && (fs.inode ip).valid && (fs.inode ip).inum == i

def view (fs : Fs) : Volume where
  dinode i :=
    match fs.copyOf i with
    | some ip => (fs.inode ip).din
    | none => (fs.disk.volume fs.sb).dinode i
  block := (fs.disk.volume fs.sb).block

/-- The disk is laid out as the superblock says, and an inode has one entry in the cache. -/
structure Wf (fs : Fs) : Prop where
  valid : fs.sb.Valid
  super : Superblock.ofBlock (fs.disk 1) = fs.sb
  unique : ∀ ip ip', 0 < (fs.inode ip).ref → 0 < (fs.inode ip').ref →
    (fs.inode ip).inum = (fs.inode ip').inum → ip = ip'
  dev : ∀ ip, 0 < (fs.inode ip).ref → (fs.inode ip).dev = rootDev
  known : ∀ ip, 0 < (fs.inode ip).ref → (fs.inode ip).valid = true →
    (fs.inode ip).inum < fs.sb.ninodes

structure Copies (fs : Fs) (ip : InodePtr) (i : Word) : Prop where
  ref : 0 < (fs.inode ip).ref
  valid : (fs.inode ip).valid = true
  inum : (fs.inode ip).inum = i

theorem copies_of_copyOf (found : fs.copyOf i = some ip) : fs.Copies ip i := by
  have holds := List.find?_some found
  simp only [Bool.and_eq_true, decide_eq_true_eq, beq_iff_eq] at holds
  exact ⟨holds.1.1, holds.1.2, holds.2⟩

theorem Wf.copyOf_eq (wf : fs.Wf) (copies : fs.Copies ip i) : fs.copyOf i = some ip := by
  have found : (fs.copyOf i).isSome := by
    rw [copyOf, List.find?_isSome]
    refine ⟨ip, List.mem_finRange ip, ?_⟩
    simp [copies.ref, copies.valid, copies.inum]
  obtain ⟨ip', same⟩ := Option.isSome_iff_exists.mp found
  have other := copies_of_copyOf same
  rw [same, wf.unique ip' ip other.ref copies.ref (other.inum.trans copies.inum.symm)]

theorem copyOf_congr (same : ∀ ip, (fs'.inode ip).ref = (fs.inode ip).ref ∧
    (fs'.inode ip).valid = (fs.inode ip).valid ∧ (fs'.inode ip).inum = (fs.inode ip).inum) :
    fs'.copyOf = fs.copyOf := by
  funext i
  unfold copyOf
  congr 1
  funext ip
  obtain ⟨ref, valid, inum⟩ := same ip
  rw [ref, valid, inum]

theorem Wf.view_dinode (wf : fs.Wf) (copies : fs.Copies ip i) :
    fs.view.dinode i = (fs.inode ip).din := by
  simp only [view, wf.copyOf_eq copies]

theorem put_inode {inode : Inode} :
    (fs.put ip inode).inode ip' = if ip' = ip then inode else fs.inode ip' :=
  Function.update_apply ..

theorem put_fields (fs : Fs) (ip : InodePtr) (din : Dinode) (ip' : InodePtr) :
    ((fs.put ip { fs.inode ip with din := din }).inode ip').ref = (fs.inode ip').ref ∧
    ((fs.put ip { fs.inode ip with din := din }).inode ip').valid = (fs.inode ip').valid ∧
    ((fs.put ip { fs.inode ip with din := din }).inode ip').inum = (fs.inode ip').inum ∧
    ((fs.put ip { fs.inode ip with din := din }).inode ip').dev = (fs.inode ip').dev := by
  rw [put_inode]
  split
  · rename_i same
    rw [same]
    exact ⟨rfl, rfl, rfl, rfl⟩
  · exact ⟨rfl, rfl, rfl, rfl⟩

theorem Wf.view_put (wf : fs.Wf) (copies : fs.Copies ip i) (din : Dinode) :
    (fs.put ip { fs.inode ip with din := din }).view = fs.view.setDinode i din := by
  have entries : (fs.put ip { fs.inode ip with din := din }).copyOf = fs.copyOf :=
    copyOf_congr fun ip' => by
      obtain ⟨ref, valid, inum, -⟩ := put_fields fs ip din ip'
      exact ⟨ref, valid, inum⟩
  refine congrArg₂ Volume.mk (funext fun i' => ?_) rfl
  rw [Function.update_apply, entries]
  by_cases same : i' = i
  · rw [if_pos same, same, wf.copyOf_eq copies]
    simp only [put_inode, if_true]
  · rw [if_neg same]
    cases found : fs.copyOf i' with
    | none => simp only [view, found]; rfl
    | some ip' =>
      have differ : ip' ≠ ip := by
        rintro rfl
        exact same ((copies_of_copyOf found).inum.symm.trans copies.inum)
      simp only [put_inode, if_neg differ, view, found]

theorem Wf.put (wf : fs.Wf) (ip : InodePtr) (din : Dinode) :
    (fs.put ip { fs.inode ip with din := din }).Wf where
  valid := wf.valid
  super := wf.super
  unique ip₁ ip₂ := by
    obtain ⟨ref₁, -, inum₁, -⟩ := put_fields fs ip din ip₁
    obtain ⟨ref₂, -, inum₂, -⟩ := put_fields fs ip din ip₂
    rw [ref₁, ref₂, inum₁, inum₂]
    exact wf.unique ip₁ ip₂
  dev ip' := by
    obtain ⟨ref, -, -, dev⟩ := put_fields fs ip din ip'
    rw [ref, dev]
    exact wf.dev ip'
  known ip' := by
    obtain ⟨ref, valid, inum, -⟩ := put_fields fs ip din ip'
    rw [ref, valid, inum]
    exact wf.known ip'

theorem Copies.put (copies : fs.Copies ip i) (ip' : InodePtr) (din : Dinode) :
    (fs.put ip' { fs.inode ip' with din := din }).Copies ip i := by
  obtain ⟨ref, valid, inum, -⟩ := put_fields fs ip' din ip
  exact ⟨ref ▸ copies.ref, valid ▸ copies.valid, inum ▸ copies.inum⟩

theorem view_write_eq :
    (fs.write b data).view = { fs.view with
      dinode := fun i => match fs.copyOf i with
        | some ip => (fs.inode ip).din
        | none => (Disk.volume (Function.update fs.disk b data) fs.sb).dinode i
      block := (Disk.volume (Function.update fs.disk b data) fs.sb).block } := rfl

theorem Wf.write (wf : fs.Wf) (later : 1 < b.toNat) (data : Block) : (fs.write b data).Wf where
  valid := wf.valid
  super := by
    have differ : (1 : BlockNo) ≠ b := by
      rintro rfl
      exact absurd later (by decide)
    show Superblock.ofBlock (Function.update fs.disk b data 1) = fs.sb
    rw [Function.update_of_ne differ, wf.super]
  unique := wf.unique
  dev := wf.dev
  known := wf.known

theorem Wf.view_write (wf : fs.Wf) (start : fs.sb.dataStart ≤ b.toNat) (data : Block) :
    (fs.write b data).view = fs.view.setBlock b data := by
  rw [view_write_eq, Disk.volume_data wf.valid start]
  rfl

theorem Wf.view_write_bitmap (wf : fs.Wf) (after : fs.sb.bmapstart.toNat ≤ b.toNat)
    (before : b.toNat < fs.sb.dataStart) (data : Block) : (fs.write b data).view = fs.view := by
  rw [view_write_eq, Disk.volume_bitmap wf.valid after before]
  rfl

theorem Wf.iblock_bounds (wf : fs.Wf) (known : i < fs.sb.ninodes) :
    1 < (iblock fs.sb i).toNat ∧ (iblock fs.sb i).toNat < fs.sb.bmapstart.toNat := by
  obtain ⟨value, before⟩ := wf.valid.iblock_toNat known
  have start := wf.valid.inodes
  exact ⟨by omega, before⟩

def stored (fs : Fs) (ip : InodePtr) : Fs :=
  let place := iblock fs.sb (fs.inode ip).inum
  fs.write place (Dinode.store (fs.disk place) (iplace (fs.inode ip).inum) (fs.inode ip).din)

theorem wp_iupdate (inside : 0 < fs.outstanding)
    (big : fs.LogFull → fault (.panic "too big a transaction")) (done : post () (fs.stored ip)) :
    Wp (iupdate ip) post fault fs := by
  rw [iupdate, wp_bind, wp_getInode, wp_bind, wp_get, wp_bind, wp_bread]
  exact wp_logWrite inside big done

theorem Wf.stored (wf : fs.Wf) (copies : fs.Copies ip i) : (fs.stored ip).Wf :=
  wf.write (wf.iblock_bounds (wf.known ip copies.ref copies.valid)).1 _

theorem Wf.view_stored (wf : fs.Wf) (copies : fs.Copies ip i) : (fs.stored ip).view = fs.view := by
  have known := wf.known ip copies.ref copies.valid
  have volume : Disk.volume (fs.stored ip).disk fs.sb =
      (fs.disk.volume fs.sb).setDinode (fs.inode ip).inum (fs.inode ip).din :=
    Disk.volume_putDinode wf.valid known _
  refine congrArg₂ Volume.mk (funext fun i' => ?_) ?_
  · show (match fs.copyOf i' with
      | some ip => (fs.inode ip).din
      | none => (Disk.volume (fs.stored ip).disk fs.sb).dinode i') = fs.view.dinode i'
    rw [volume]
    cases found : fs.copyOf i' with
    | some ip' => simp only [view, found]
    | none =>
      have differ : i' ≠ (fs.inode ip).inum := by
        rintro rfl
        rw [wf.copyOf_eq ⟨copies.ref, copies.valid, rfl⟩] at found
        cases found
      simp only [view, found]
      exact Function.update_of_ne differ _ _
  · show (Disk.volume (fs.stored ip).disk fs.sb).block = _
    rw [volume]
    rfl

end Fs

end Xv6
