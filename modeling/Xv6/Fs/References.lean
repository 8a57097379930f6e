import Xv6.Fs.Frame
import Xv6.Sys.Namex

/-!
# References and locks of a call

A call takes references to inodes and locks them, and gives both back on every path that returns.
`Tracks` compares the cache with what it was before: each entry has the references of before and
those that the call owns now, and nothing is locked that was not locked then but the inode that the
call has locked. These facts hold in every state, whatever is on the disk, for all outcomes that
are not faults.
-/

namespace Xv6

open Bytes (Byte)
open Program

/-- An entry of the cache, before a call and now, when the call owns a number of references to it
and may have locked it. -/
structure Inode.Tracked (before now : Inode) (owned : Nat) (locked : Prop) : Prop where
  ref : now.ref = before.ref + owned
  named : 0 < before.ref → now.dev = before.dev ∧ now.inum = before.inum
  mine : locked → now.busy = true ∧ 0 < owned ∧ (0 < before.ref → before.busy = false)
  others : ¬ locked → (now.busy = true → before.busy = true) ∧
    (0 < before.ref → now.busy = before.busy)

theorem Inode.Tracked.one_more {before now : Inode} {owned more : Nat} {locked : Prop}
    (tracked : before.Tracked now owned locked) (next : more = owned + 1) :
    before.Tracked { now with ref := now.ref + 1 } more locked := by
  refine ⟨?_, tracked.named, fun taken => ?_, tracked.others⟩
  · rw [next, ← Nat.add_assoc, ← tracked.ref]
  · obtain ⟨busy, some, free⟩ := tracked.mine taken
    exact ⟨busy, by omega, free⟩

namespace Fs

/-- The cache before a call and now, with the references that the call owns and the inode that it
has locked. -/
def Tracks (before now : Fs) (owned : List InodePtr) (locked : Option InodePtr) : Prop :=
  ∀ ip, (before.inode ip).Tracked (now.inode ip) (owned.count ip) (locked = some ip)

def SameRefs (fs fs' : Fs) : Prop :=
  ∀ ip, (fs'.inode ip).ref = (fs.inode ip).ref ∧ (fs'.inode ip).dev = (fs.inode ip).dev ∧
    (fs'.inode ip).inum = (fs.inode ip).inum ∧ (fs'.inode ip).busy = (fs.inode ip).busy

variable {before fs fs' fs'' : Fs} {ip : InodePtr} {owned : List InodePtr}
  {locked : Option InodePtr}

theorem Tracks.refl (fs : Fs) : Tracks fs fs [] none := fun _ =>
  ⟨rfl, fun _ => ⟨rfl, rfl⟩, nofun, fun _ => ⟨id, fun _ => rfl⟩⟩

theorem Tracks.same (tracks : Tracks before fs owned locked) (same : SameRefs fs fs') :
    Tracks before fs' owned locked := by
  intro ip
  obtain ⟨ref, dev, inum, busy⟩ := same ip
  obtain ⟨ref', named, mine, others⟩ := tracks ip
  exact ⟨by rw [ref, ref'], by rwa [dev, inum], by rwa [busy], by rwa [busy]⟩

variable {owned' : List InodePtr}

theorem Tracks.perm (tracks : Tracks before fs owned locked) (perm : owned.Perm owned') :
    Tracks before fs owned' locked := by
  intro ip
  rw [← perm.count_eq]
  exact tracks ip

theorem Tracks.put {locked' : Option InodePtr} {inode : Inode}
    (tracks : Tracks before fs owned locked)
    (counts : ∀ other, other ≠ ip → owned'.count other = owned.count other)
    (locks : ∀ other, other ≠ ip → (locked' = some other ↔ locked = some other))
    (entry : (before.inode ip).Tracked inode (owned'.count ip) (locked' = some ip)) :
    Tracks before (fs.put ip inode) owned' locked' := by
  intro other
  by_cases here : other = ip
  · rw [here, put_self]
    exact entry
  · have same : (fs.put ip inode).inode other = fs.inode other := Function.update_of_ne here ..
    rw [same, counts other here]
    have old := tracks other
    exact ⟨old.ref, old.named, fun taken => old.mine ((locks other here).mp taken),
      fun free => old.others fun taken => free ((locks other here).mpr taken)⟩

theorem count_cons_other {other : InodePtr} (differ : other ≠ ip) :
    (ip :: owned).count other = owned.count other :=
  List.count_cons_of_ne (Ne.symm differ)

section Keeping

theorem SameRefs.refl (fs : Fs) : SameRefs fs fs := fun _ => ⟨rfl, rfl, rfl, rfl⟩

theorem Readdressed.sameRefs (changed : Readdressed fs fs' ip) : SameRefs fs fs' := by
  obtain ⟨⟨addrs, same⟩, -⟩ := changed
  intro other
  rw [same]
  by_cases here : other = ip
  · rw [here, Function.update_self]
    exact ⟨rfl, rfl, rfl, rfl⟩
  · rw [Function.update_of_ne here]
    exact ⟨rfl, rfl, rfl, rfl⟩

theorem wp_readi_refs (ip : InodePtr) (off n : Word) :
    Wp (readi ip off n) (fun _ fs' => SameRefs fs fs') (fun _ => True) fs := by
  by_cases file : (fs.inode ip).din.type = tDev
  · rw [readi, wp_bind, wp_get]
    dsimp only
    rw [if_pos file]
    split <;> exact .refl fs
  · exact (wp_readi_file file).imp fun _ _ read => read.1.sameRefs

end Keeping

theorem wp_iget_tracks (tracks : Tracks before fs owned locked) (dev inum : Word) :
    Wp (iget dev inum) (fun ip fs' => Tracks before fs' (ip :: owned) locked) (fun _ => True)
      fs := by
  rw [iget, wp_bind, wp_get]
  dsimp only
  split
  · rename_i ip found
    rw [wp_bind, wp_setInode, wp_pure]
    have old := tracks ip
    refine tracks.put (fun _ => count_cons_other) (fun _ _ => Iff.rfl) (old.one_more ?_)
    exact List.count_cons_self
  · split
    · trivial
    · rename_i ip found
      have unused : (fs.inode ip).ref = 0 := by
        have test := List.find?_some found
        exact beq_iff_eq.mp test
      have old := tracks ip
      have none : (before.inode ip).ref = 0 ∧ owned.count ip = 0 := by
        have sum := old.ref
        omega
      rw [wp_bind, wp_setInode, wp_pure]
      refine tracks.put (fun _ => count_cons_other) (fun _ _ => Iff.rfl) ⟨?_, ?_, ?_, ?_⟩
      · rw [List.count_cons_self, none.1, none.2]
      · intro some
        omega
      · intro taken
        have some := (old.mine taken).2.1
        omega
      · exact fun _ => ⟨nofun, fun some => by omega⟩

theorem wp_idup_tracks (tracks : Tracks before fs owned locked) (ip : InodePtr) :
    Wp (idup ip) (fun r fs' => r = ip ∧ Tracks before fs' (ip :: owned) locked) (fun _ => True)
      fs := by
  rw [idup, wp_bind, wp_getInode, wp_bind, wp_setInode, wp_pure]
  have old := tracks ip
  refine ⟨rfl, tracks.put (fun _ => count_cons_other) (fun _ _ => Iff.rfl) (old.one_more ?_)⟩
  exact List.count_cons_self

theorem wp_ilock_tracks (tracks : Tracks before fs owned none) (member : ip ∈ owned) :
    Wp (ilock ip) (fun _ fs' => Tracks before fs' owned (some ip)) (fun _ => True) fs := by
  have old := tracks ip
  have put : ∀ inode : Inode, (fs.inode ip).busy = false → inode.ref = (fs.inode ip).ref →
      inode.dev = (fs.inode ip).dev → inode.inum = (fs.inode ip).inum → inode.busy = true →
      Tracks before (fs.put ip inode) owned (some ip) := by
    intro inode free ref dev inum busy
    refine tracks.put (fun _ _ => rfl) (fun other differ => ?_) ⟨?_, ?_, ?_, nofun⟩
    · exact iff_of_false (fun same => differ (Option.some.inj same).symm) nofun
    · rw [ref, old.ref]
    · rw [dev, inum]
      exact old.named
    · intro _
      refine ⟨busy, List.count_pos_iff.mpr member, fun some => ?_⟩
      rw [← (old.others nofun).2 some, free]
  rw [ilock, wp_bind, wp_getInode]
  split
  · trivial
  · split
    · trivial
    · rename_i free
      have free' := Bool.eq_false_iff.mpr free
      split
      · exact put _ free' rfl rfl rfl rfl
      · rw [wp_bind, wp_get, wp_bind, wp_setInode]
        split
        · trivial
        · exact put _ free' rfl rfl rfl rfl

theorem wp_iunlock_tracks (tracks : Tracks before fs owned (some ip)) :
    Wp (iunlock ip) (fun _ fs' => Tracks before fs' owned none) (fun _ => True) fs := by
  have old := tracks ip
  rw [iunlock, wp_bind, wp_getInode]
  split
  · trivial
  · refine tracks.put (fun _ _ => rfl) (fun other differ => ?_)
      ⟨old.ref, old.named, by rintro ⟨⟩, ?_⟩
    · exact iff_of_false (by rintro ⟨⟩) fun same => differ (Option.some.inj same).symm
    · exact fun _ => ⟨by rintro ⟨⟩, fun some => ((old.mine rfl).2.2 some).symm⟩

theorem wp_iputDrop_tracks {freed : Bool}
    (tracks : Tracks before fs (ip :: owned) (if freed then some ip else none)) :
    Wp (iputDrop ip freed) (fun _ fs' => Tracks before fs' owned none) (fun _ => True) fs := by
  have old := tracks ip
  have ref : (fs.inode ip).ref - 1 = (before.inode ip).ref + owned.count ip := by
    rw [old.ref, List.count_cons_self]
    omega
  rw [iputDrop, wp_bind, wp_getInode]
  cases freed with
  | true =>
    refine tracks.put (fun _ differ => (count_cons_other differ).symm) (fun other differ => ?_)
      ⟨ref, old.named, nofun, fun _ => ⟨nofun, fun some => ((old.mine rfl).2.2 some).symm⟩⟩
    exact iff_of_false nofun fun same => differ (Option.some.inj same).symm
  | false =>
    exact tracks.put (fun _ differ => (count_cons_other differ).symm) (fun _ _ => Iff.rfl)
      ⟨ref, old.named, nofun, old.others⟩

theorem wp_dirlookupLoop_tracks (fuel : Nat) (tracks : Tracks before fs owned locked)
    (dp : InodePtr) (name : List Byte) (off : Word) :
    Wp (dirlookupLoop dp name fuel off) (fun r fs' =>
      Tracks before fs' ((r.map Prod.fst).toList ++ owned) locked) (fun _ => True) fs := by
  induction fuel generalizing fs off with
  | zero => trivial
  | succ fuel ih =>
    rw [dirlookupLoop, wp_bind, wp_getInode]
    split
    · rw [wp_bind, readDirent, wp_bind]
      refine (wp_readi_refs dp off direntSize).imp fun r fs₁ same => ?_
      have tracks₁ := tracks.same same
      cases r with
      | error bytes => trivial
      | ok bytes =>
        dsimp only
        split
        · trivial
        · rw [wp_pure]
          split
          · exact ih tracks₁ _
          · split
            · rw [wp_bind]
              exact (wp_iget_tracks tracks₁ _ _).imp fun _ _ taken => taken
            · exact ih tracks₁ _
    · exact tracks

theorem wp_dirlookup_tracks (tracks : Tracks before fs owned locked) (dp : InodePtr)
    (name : List Byte) :
    Wp (dirlookup dp name) (fun r fs' =>
      Tracks before fs' ((r.map Prod.fst).toList ++ owned) locked) (fun _ => True) fs := by
  rw [dirlookup, wp_bind, wp_getInode]
  split
  · trivial
  · exact wp_dirlookupLoop_tracks _ tracks dp name 0

end Fs

namespace Kernel

open Fs (Tracks)

variable {P : Type} {k : Kernel P} {before : Fs} {ip : InodePtr} {owned : List InodePtr}
  {fault : Fault → Prop}

@[simp]
theorem wp_onFs {α : Type} {action : FsM α} {post : α → Kernel P → Prop} :
    Wp (onFs action : FsCall P α).run post fault k ↔
      Wp action (fun value fs => post value { k with fs := fs }) fault k.fs := by
  rw [onFs, Steps.wp_run_atomic, wp_focus]

theorem wp_onFs_next {α β : Type} {action : FsM β} {next : β → FsCall P α}
    {post : α → Kernel P → Prop}
    (step : Wp action (fun value fs => Wp (next value).run post fault { k with fs := fs }) fault
      k.fs) : Wp ((onFs action : FsCall P β) >>= next).run post fault k := by
  rw [Steps.wp_run_bind, wp_onFs]
  exact step

end Kernel

end Xv6
