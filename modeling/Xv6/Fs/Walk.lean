import Xv6.Fs.DirMap
import Xv6.Fs.References

/-!
# Walking through the inode cache

While a call walks from inode to inode it takes references, locks inodes, reads copies of them from
disk, and gives all of that back. The volume that the kernel sees stays the same, since the only
copies that come and go are those that the call read itself. A call can be blocked by an inode that
is locked, and it panics when the cache is full.
-/

namespace Xv6

open Bytes (Byte)
open Program

namespace Fs

variable {before fs fs' : Fs} {ip : InodePtr} {i : Word} {x : Inode} {owned : List InodePtr}
  {locked : Option InodePtr} {fault : Fault → Prop}

/-- The file system before a call and now, with the references that the call owns and the inode
that it has locked. -/
structure Walk (before now : Fs) (owned : List InodePtr) (locked : Option InodePtr) : Prop where
  tracks : Tracks before now owned locked
  wf : now.Wf
  sb : now.sb = before.sb
  disk : now.disk = before.disk
  view : now.view = before.view
  clean : ∀ ip, (before.inode ip).ref = 0 → now.Clean (now.inode ip)

namespace Walk

theorem refl (wf : fs.Wf) : Walk fs fs [] none where
  tracks := .refl fs
  wf := wf
  sb := rfl
  disk := rfl
  view := rfl
  clean ip none some := absurd some (by rw [none]; exact Nat.lt_irrefl 0)

variable {owned' : List InodePtr}

theorem perm (walk : Walk before fs owned locked) (perm : owned.Perm owned') :
    Walk before fs owned' locked :=
  { walk with tracks := walk.tracks.perm perm }

theorem put {locked' : Option InodePtr} (walk : Walk before fs owned locked)
    (tracks : Tracks before (fs.put ip x) owned' locked') (wf : (fs.put ip x).Wf)
    (view : (fs.put ip x).view = fs.view) (clean : (before.inode ip).ref = 0 → fs.Clean x) :
    Walk before (fs.put ip x) owned' locked' where
  tracks := tracks
  wf := wf
  sb := walk.sb
  disk := walk.disk
  view := view.trans walk.view
  clean ip' none := by
    rw [put_inode]
    split
    · rename_i same
      exact clean (same ▸ none)
    · exact walk.clean ip' none

theorem got (walk : Walk before fs owned locked)
    (tracks : Tracks before (fs.put ip x) (ip :: owned) locked) (got : Got fs ip i x) :
    Walk before (fs.put ip x) (ip :: owned) locked := by
  refine walk.put tracks (got.wf walk.wf) (got.view walk.wf) fun none _ valid => ?_
  rcases Nat.eq_zero_or_pos (fs.inode ip).ref with zero | some
  · rw [(got.new zero).2.2.1] at valid
    cases valid
  · have kept := got.kept some
    rw [kept] at valid ⊢
    exact walk.clean ip none some valid

section

variable (walk : Walk before fs owned locked)
include walk

theorem wp_iget {post : InodePtr → Fs → Prop}
    (full : (∀ ip, 0 < (fs.inode ip).ref) → fault (.panic "iget: no inodes"))
    (done : ∀ ip fs', Walk before fs' (ip :: owned) locked → (fs'.inode ip).inum = i →
      post ip fs') : Wp (iget rootDev i) post fault fs := by
  refine Wp.using (wp_iget_tracks walk.tracks rootDev i)
    (Fs.wp_iget walk.wf full fun ip x got tracks => ?_)
  refine done ip _ (walk.got tracks got) ?_
  rw [put_inode, if_pos rfl, got.inum]

theorem wp_idup {post : InodePtr → Fs → Prop} (some : 0 < (before.inode ip).ref)
    (done : ∀ fs', Walk before fs' (ip :: owned) locked →
      (fs'.inode ip).inum = (fs.inode ip).inum → post ip fs') : Wp (idup ip) post fault fs := by
  have ref := (walk.tracks ip).ref
  have some' : 0 < (fs.inode ip).ref := by omega
  refine Wp.using (wp_idup_tracks walk.tracks ip) ?_
  rw [idup, wp_bind, wp_getInode, wp_bind, wp_setInode, wp_pure]
  rintro ⟨-, tracks⟩
  have wf := walk.wf.put_kept ip
    { fs.inode ip with ref := (fs.inode ip).ref + 1 } (fun _ => some') rfl rfl .inl
  refine done _ (walk.put tracks wf (walk.wf.view_entry wf (.inl ⟨?_, rfl, rfl, rfl⟩))
    fun none => absurd some (by rw [none]; exact Nat.lt_irrefl 0)) ?_
  · exact ⟨fun _ => some', fun _ => Nat.succ_pos _⟩
  · rw [put_inode, if_pos rfl]

theorem ref_pos (member : ip ∈ owned) : 0 < (fs.inode ip).ref := by
  have ref := (walk.tracks ip).ref
  have count := List.count_pos_iff.mpr member
  omega

end

variable {post : Unit → Fs → Prop}

theorem wp_ilock (walk : Walk before fs owned none) (member : ip ∈ owned)
    (inum : (fs.inode ip).inum = i) (known : i < before.sb.ninodes) (live : before.view.Live i)
    (blocked : (before.inode ip).busy = true → fault .disabled)
    (done : ∀ fs', Walk before fs' owned (some ip) → fs'.Held ip i → post () fs') :
    Wp (ilock ip) post fault fs := by
  have some := walk.ref_pos member
  refine Wp.using (wp_ilock_tracks walk.tracks member) ?_
  rw [ilock, wp_bind, wp_getInode, if_neg (by omega)]
  split
  · rename_i busy
    exact blocked (((walk.tracks ip).others (by rintro ⟨⟩)).1 busy)
  · split
    · rename_i valid
      rw [wp_setInode]
      intro tracks
      have wf := walk.wf.put_kept ip { fs.inode ip with busy := true }
        (fun _ => some) rfl rfl .inl
      have view := walk.wf.view_entry wf (.inl ⟨Iff.rfl, rfl, rfl, rfl⟩)
      have copies : (fs.put ip { fs.inode ip with busy := true }).Copies ip i := by
        refine ⟨?_, ?_, ?_⟩ <;> rw [put_inode, if_pos rfl]
        exacts [some, valid, inum]
      refine done _ (walk.put tracks wf view fun none => walk.clean ip none) ⟨copies, ?_⟩
      rw [← wf.view_dinode copies, view, walk.view]
      exact live
    · rename_i invalid
      have none : ∀ ip', ¬ fs.Copies ip' i := by
        intro ip' copies
        obtain rfl := walk.wf.unique ip' ip copies.ref some (copies.inum.trans inum.symm)
        exact invalid copies.valid
      have disk : fs.disk.dinode fs.sb (fs.inode ip).inum = fs.onDisk i := by
        rw [inum]
        exact (Disk.volume_dinode (walk.sb ▸ known)).symm
      have live' : (fs.onDisk i).type ≠ 0 := by
        rw [← view_dinode_none none, walk.view]
        exact live
      rw [wp_bind, wp_get, wp_bind, wp_setInode]
      rw [disk, if_neg live', wp_pure]
      intro tracks
      have wf := walk.wf.put_kept ip
        { fs.inode ip with busy := true, valid := true, din := fs.onDisk i }
        (fun _ => some) rfl rfl fun _ => .inr (by rw [inum, walk.sb]; exact known)
      have clean : fs.Clean
          { fs.inode ip with busy := true, valid := true, din := fs.onDisk i } := by
        intro _ _
        rw [inum]
      have view := walk.wf.view_entry wf (.inr ⟨fun _ valid => absurd valid invalid, clean⟩)
      refine done _ (walk.put tracks wf view fun _ => clean) ⟨⟨?_, ?_, ?_⟩, ?_⟩ <;>
        rw [put_inode, if_pos rfl]
      exacts [some, inum, live']

theorem inum_put (same : x.inum = (fs.inode ip).inum) (ip' : InodePtr) :
    ((fs.put ip x).inode ip').inum = (fs.inode ip').inum := by
  rw [put_inode]
  split
  · rename_i here
    rw [same, here]
  · rfl

theorem wp_iunlock (walk : Walk before fs owned (some ip))
    (done : ∀ fs', Walk before fs' owned none →
      (∀ ip', (fs'.inode ip').inum = (fs.inode ip').inum) → post () fs') :
    Wp (iunlock ip) post fault fs := by
  obtain ⟨busy, count, -⟩ := (walk.tracks ip).mine rfl
  have some := walk.ref_pos (List.count_pos_iff.mp count)
  refine Wp.using (wp_iunlock_tracks walk.tracks) ?_
  rw [iunlock, wp_bind, wp_getInode, if_neg (by rw [busy]; simp; omega), wp_setInode]
  intro tracks
  have wf := walk.wf.put_kept ip { fs.inode ip with busy := false } (fun _ => some) rfl rfl .inl
  have view := walk.wf.view_entry wf (.inl ⟨Iff.rfl, rfl, rfl, rfl⟩)
  exact done _ (walk.put tracks wf view fun none => walk.clean ip none) (inum_put rfl)

theorem last (walk : Walk before fs (ip :: owned) locked) (one : (fs.inode ip).ref = 1) :
    (before.inode ip).ref = 0 := by
  have ref := (walk.tracks ip).ref
  rw [List.count_cons_self] at ref
  omega

theorem wp_iputTest {post : Bool → Fs → Prop} (walk : Walk before fs (ip :: owned) none)
    (linked : (before.inode ip).ref = 0 →
      (before.view.dinode (fs.inode ip).inum).nlink ≠ 0)
    (done : post false fs) : Wp (iputTest ip) post fault fs := by
  rw [iputTest, wp_bind, wp_getInode, if_neg, wp_pure]
  · exact done
  · rintro ⟨one, valid, none⟩
    have copies : fs.Copies ip (fs.inode ip).inum :=
      ⟨walk.ref_pos List.mem_cons_self, valid, rfl⟩
    refine linked (walk.last one) ?_
    rw [← walk.view, walk.wf.view_dinode copies]
    exact none

theorem wp_iputDrop (walk : Walk before fs (ip :: owned) none)
    (done : ∀ fs', Walk before fs' owned none →
      (∀ ip', (fs'.inode ip').inum = (fs.inode ip').inum) → post () fs') :
    Wp (iputDrop ip false) post fault fs := by
  have known : Wp (iputDrop ip false) _ _ fs := wp_iputDrop_tracks walk.tracks
  refine Wp.using known ?_
  rw [iputDrop, wp_bind, wp_getInode, if_neg Bool.false_ne_true, wp_setInode]
  intro tracks
  have view := walk.wf.view_drop ip fun one => walk.clean ip (walk.last one)
  exact done _ (walk.put tracks (walk.wf.drop ip) view fun none _ =>
    walk.clean ip none (walk.ref_pos List.mem_cons_self)) (inum_put rfl)

theorem dir (walk : Walk before fs owned locked) (held : fs.Held ip i) (blocks : before.Blocks)
    (type : (before.view.dinode i).type = tDir) (whole : before.view.HoleFree i)
    (aligned : (before.view.content i).length % 16 = 0) : fs.Dir ip i where
  wf := walk.wf
  blocks := by
    have bits : ∀ b, fs.bit b = before.bit b := fun b => by rw [bit, bit, walk.disk, walk.sb]
    refine ⟨fun b low => ?_, ?_⟩
    · rw [walk.sb] at low
      rw [bits, blocks.reserved b low]
    · rw [walk.view]
      exact blocks.exact.congr (fun _ => rfl) fun b => by rw [Used, Used, bits, walk.sb]
  held := held
  type := by
    rw [← walk.wf.view_dinode held.toCopies, walk.view]
    exact type
  whole := walk.view ▸ whole
  aligned := walk.view ▸ aligned

theorem wp_dirlookup {post : Option (InodePtr × Word) → Fs → Prop} {name : List Byte}
    (walk : Walk before fs owned locked) (dir : fs.Dir ip i) (text : 0 ∉ name)
    (full : (∀ ip, 0 < (fs.inode ip).ref) → fault (.panic "iget: no inodes"))
    (absent : SlotMap.find (slots (before.view.content i)) (name.take dirsiz) = none →
      post none fs)
    (found : ∀ k j next off fs',
      SlotMap.find (slots (before.view.content i)) (name.take dirsiz) = some k →
      (slots (before.view.content i))[k]? = some (some (name.take dirsiz, j)) →
      Walk before fs' (next :: owned) locked → (fs'.inode next).inum = j →
      (fs'.inode ip).inum = (fs.inode ip).inum → post (some (next, off)) fs') :
    Wp (dirlookup ip name) post fault fs := by
  refine Wp.using (wp_dirlookup_tracks walk.tracks ip name)
    (dir.wp_dirlookup text (fun none _ => ?_) full fun k j next x place slot got tracks => ?_)
  · exact absent (walk.view ▸ none)
  · refine found k j next _ _ (walk.view ▸ place) (walk.view ▸ slot) (walk.got tracks got) ?_ ?_
    · rw [put_inode, if_pos rfl, got.inum]
    · rw [put_inode]
      split
      · rename_i same
        subst same
        rw [got.kept dir.held.ref]
      · rfl

end Walk

end Fs

end Xv6
