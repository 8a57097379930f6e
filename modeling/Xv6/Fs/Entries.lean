import Xv6.Fs.Transfer

/-!
# References to inodes

`iget`, `idup`, `ilock`, `iunlock` and the dropping of a reference change an entry of the inode
cache, and nothing of the volume that the kernel sees: a reference alone is no copy, a copy that is
read from disk is the inode on disk, and a copy that goes with its last reference is no newer.
-/

namespace Xv6

open Bytes (Byte)
open Program

namespace Fs

variable {fs fs' : Fs} {ip : InodePtr} {i : Word} {x : Inode} {fault : Fault → Prop}

def onDisk (fs : Fs) (i : Word) : Dinode := (fs.disk.volume fs.sb).dinode i

theorem view_dinode_none (none : ∀ ip, ¬ fs.Copies ip i) : fs.view.dinode i = fs.onDisk i := by
  have absent : fs.copyOf i = .none := by
    cases found : fs.copyOf i with
    | none => rfl
    | some ip => exact absurd (copies_of_copyOf found) (none ip)
  simp only [view, absent, onDisk]

def Clean (fs : Fs) (inode : Inode) : Prop :=
  0 < inode.ref → inode.valid = true → inode.din = fs.onDisk inode.inum

structure SameCopy (x y : Inode) : Prop where
  ref : 0 < x.ref ↔ 0 < y.ref
  valid : x.valid = y.valid
  inum : x.inum = y.inum
  din : x.din = y.din

theorem Wf.put_entry (wf : fs.Wf) (dev : 0 < x.ref → x.dev = rootDev)
    (known : 0 < x.ref → x.valid = true → x.inum < fs.sb.ninodes)
    (alone : 0 < x.ref → ∀ ip', ip' ≠ ip → 0 < (fs.inode ip').ref →
      (fs.inode ip').inum ≠ x.inum) : (fs.put ip x).Wf where
  valid := wf.valid
  super := wf.super
  unique ip₁ ip₂ := by
    rw [put_inode, put_inode]
    intro ref₁ ref₂ same
    split at ref₁ <;> rename_i first <;> split at ref₂ <;> rename_i second
    · rw [first, second]
    · rw [if_pos first, if_neg second] at same
      exact absurd same.symm (alone ref₁ ip₂ second ref₂)
    · rw [if_neg first, if_pos second] at same
      exact absurd same (alone ref₂ ip₁ first ref₁)
    · rw [if_neg first, if_neg second] at same
      exact wf.unique ip₁ ip₂ ref₁ ref₂ same
  dev ip' := by
    rw [put_inode]
    split
    · exact dev
    · exact wf.dev ip'
  known ip' := by
    rw [put_inode]
    split
    · exact known
    · exact wf.known ip'

theorem copies_put {ip' : InodePtr} (other : ip' ≠ ip) :
    (fs.put ip x).Copies ip' i ↔ fs.Copies ip' i := by
  have same : (fs.put ip x).inode ip' = fs.inode ip' := by rw [put_inode, if_neg other]
  constructor
  · rintro ⟨ref, valid, inum⟩
    rw [same] at ref valid inum
    exact ⟨ref, valid, inum⟩
  · rintro ⟨ref, valid, inum⟩
    rw [← same] at ref valid inum
    exact ⟨ref, valid, inum⟩

theorem Wf.view_cases (wf : fs.Wf) (i : Word) :
    (∃ ip, fs.Copies ip i ∧ fs.view.dinode i = (fs.inode ip).din) ∨
      (∀ ip, ¬ fs.Copies ip i) ∧ fs.view.dinode i = fs.onDisk i := by
  by_cases some : ∃ ip, fs.Copies ip i
  · obtain ⟨ip, copies⟩ := some
    exact .inl ⟨ip, copies, wf.view_dinode copies⟩
  · have none := not_exists.mp some
    exact .inr ⟨none, view_dinode_none none⟩

theorem Wf.view_entry (wf : fs.Wf) (wf' : (fs.put ip x).Wf)
    (same : SameCopy x (fs.inode ip) ∨ fs.Clean (fs.inode ip) ∧ fs.Clean x) :
    (fs.put ip x).view = fs.view := by
  have entry : (fs.put ip x).inode ip = x := by rw [put_inode, if_pos rfl]
  have disk : ∀ i, (fs.put ip x).onDisk i = fs.onDisk i := fun _ => rfl
  refine congrArg₂ Volume.mk (funext fun i => ?_) rfl
  show (fs.put ip x).view.dinode i = fs.view.dinode i
  by_cases other : ∃ ip', ip' ≠ ip ∧ fs.Copies ip' i
  · obtain ⟨ip', differ, copies⟩ := other
    rw [wf.view_dinode copies, wf'.view_dinode ((copies_put differ).mpr copies), put_inode,
      if_neg differ]
  have only : ∀ ip', fs.Copies ip' i → ip' = ip := fun ip' copies => by
    by_contra differ
    exact other ⟨ip', differ, copies⟩
  have only' : ∀ ip', (fs.put ip x).Copies ip' i → ip' = ip := fun ip' copies => by
    by_contra differ
    exact other ⟨ip', differ, (copies_put differ).mp copies⟩
  rcases wf.view_cases i with ⟨ip₁, copies, seen⟩ | ⟨none, seen⟩
  · obtain rfl := only ip₁ copies
    rcases same with same | ⟨clean, clean'⟩
    · have copies' : (fs.put ip₁ x).Copies ip₁ i := by
        refine ⟨?_, ?_, ?_⟩ <;> rw [entry]
        exacts [same.ref.mpr copies.ref, same.valid.trans copies.valid,
          same.inum.trans copies.inum]
      rw [seen, wf'.view_dinode copies', entry, same.din]
    · rw [seen, clean copies.ref copies.valid, copies.inum]
      rcases wf'.view_cases i with ⟨ip₂, copies', seen'⟩ | ⟨-, seen'⟩
      · obtain rfl := only' ip₂ copies'
        have inum := copies'.inum
        have ref := copies'.ref
        have valid := copies'.valid
        rw [entry] at inum ref valid seen'
        rw [seen', clean' ref valid, inum]
      · rw [seen', disk]
  · rcases wf'.view_cases i with ⟨ip₂, copies', seen'⟩ | ⟨-, seen'⟩
    · obtain rfl := only' ip₂ copies'
      have inum := copies'.inum
      have ref := copies'.ref
      have valid := copies'.valid
      rw [entry] at inum ref valid seen'
      rcases same with same | ⟨-, clean'⟩
      · exact absurd ⟨same.ref.mp ref, same.valid ▸ valid, same.inum ▸ inum⟩ (none ip₂)
      · rw [seen, seen', clean' ref valid, inum]
    · rw [seen, seen', disk]

theorem Wf.put_kept (wf : fs.Wf) (ip : InodePtr) (x : Inode)
    (ref : 0 < x.ref → 0 < (fs.inode ip).ref)
    (dev : x.dev = (fs.inode ip).dev) (inum : x.inum = (fs.inode ip).inum)
    (valid : x.valid = true → (fs.inode ip).valid = true ∨ x.inum < fs.sb.ninodes) :
    (fs.put ip x).Wf := by
  refine wf.put_entry (fun some => ?_) (fun some holds => ?_) fun some ip' other some' same => ?_
  · rw [dev, wf.dev ip (ref some)]
  · rcases valid holds with before | known
    · rw [inum]
      exact wf.known ip (ref some) before
    · exact known
  · exact other (wf.unique ip' ip some' (ref some) (same.trans inum))

structure Got (fs : Fs) (ip : InodePtr) (i : Word) (x : Inode) : Prop where
  inum : x.inum = i
  ref : x.ref = (fs.inode ip).ref + 1
  kept : 0 < (fs.inode ip).ref → x = { fs.inode ip with ref := x.ref }
  new : (fs.inode ip).ref = 0 → x.dev = rootDev ∧ x.busy = false ∧ x.valid = false ∧
    ∀ ip', 0 < (fs.inode ip').ref → (fs.inode ip').inum ≠ i

theorem wp_iget {post : InodePtr → Fs → Prop} (wf : fs.Wf)
    (full : (∀ ip, 0 < (fs.inode ip).ref) → fault (.panic "iget: no inodes"))
    (done : ∀ ip x, Got fs ip i x → post ip (fs.put ip x)) :
    Wp (iget rootDev i) post fault fs := by
  rw [iget, wp_bind, wp_get]
  dsimp only
  split
  · rename_i ip found
    have holds := List.find?_some found
    simp only [Bool.and_eq_true, decide_eq_true_eq, beq_iff_eq] at holds
    rw [wp_bind, wp_setInode, wp_pure]
    refine done ip _ ⟨holds.2, rfl, fun _ => rfl, fun none => ?_⟩
    exact absurd holds.1.1 (by rw [none]; exact Nat.lt_irrefl 0)
  · rename_i absent
    split
    · rename_i none
      refine full fun ip => Nat.pos_of_ne_zero fun zero => ?_
      exact List.find?_eq_none.mp none ip (List.mem_finRange ip) (beq_iff_eq.mpr zero)
    · rename_i ip found
      have holds := List.find?_some found
      have zero : (fs.inode ip).ref = 0 := beq_iff_eq.mp holds
      rw [wp_bind, wp_setInode, wp_pure]
      refine done ip _ ⟨rfl, by rw [zero], fun some => ?_, fun _ => ⟨rfl, rfl, rfl, ?_⟩⟩
      · exact absurd some (by rw [zero]; exact Nat.lt_irrefl 0)
      · intro ip' some same
        refine List.find?_eq_none.mp absent ip' (List.mem_finRange ip') ?_
        simp [some, wf.dev ip' some, same]

theorem Got.wf (got : Got fs ip i x) (wf : fs.Wf) : (fs.put ip x).Wf := by
  rcases Nat.eq_zero_or_pos (fs.inode ip).ref with none | some
  · obtain ⟨dev, -, valid, alone⟩ := got.new none
    refine wf.put_entry (fun _ => dev) (fun _ holds => ?_) fun _ ip' _ some => ?_
    · rw [valid] at holds
      cases holds
    · rw [got.inum]
      exact alone ip' some
  · have kept := got.kept some
    refine wf.put_kept _ _ (fun _ => some) ?_ ?_ fun holds => .inl ?_
    · rw [kept]
    · rw [kept]
    · rw [kept] at holds
      exact holds

theorem Got.view (got : Got fs ip i x) (wf : fs.Wf) :
    (fs.put ip x).view = fs.view := by
  refine wf.view_entry (got.wf wf) ?_
  rcases Nat.eq_zero_or_pos (fs.inode ip).ref with none | some
  · refine .inr ⟨fun some => ?_, fun _ holds => ?_⟩
    · exact absurd some (by rw [none]; exact Nat.lt_irrefl 0)
    · rw [(got.new none).2.2.1] at holds
      cases holds
  · have kept := got.kept some
    have ref := got.ref
    refine .inl ⟨⟨fun _ => some, fun _ => by omega⟩, ?_, ?_, ?_⟩ <;> rw [kept]

theorem Wf.drop (wf : fs.Wf) (ip : InodePtr) :
    (fs.put ip { fs.inode ip with ref := (fs.inode ip).ref - 1 }).Wf :=
  wf.put_kept ip _ (fun some => Nat.lt_of_lt_of_le some (Nat.sub_le ..)) rfl rfl .inl

theorem Wf.view_drop (wf : fs.Wf) (ip : InodePtr)
    (old : (fs.inode ip).ref = 1 → fs.Clean (fs.inode ip)) :
    (fs.put ip { fs.inode ip with ref := (fs.inode ip).ref - 1 }).view = fs.view := by
  refine wf.view_entry (wf.drop ip) ?_
  by_cases last : (fs.inode ip).ref = 1
  · refine .inr ⟨old last, fun some => ?_⟩
    have none : (fs.inode ip).ref - 1 = 0 := by omega
    exact absurd some (by show ¬ 0 < (fs.inode ip).ref - 1; omega)
  · refine .inl ⟨?_, rfl, rfl, rfl⟩
    show 0 < (fs.inode ip).ref - 1 ↔ 0 < (fs.inode ip).ref
    omega

variable {post : Unit → Fs → Prop}

theorem wp_iput
    (keeps : ¬ ((fs.inode ip).ref = 1 ∧ (fs.inode ip).valid = true ∧ (fs.inode ip).din.nlink = 0))
    (done : post () (fs.put ip { fs.inode ip with ref := (fs.inode ip).ref - 1 })) :
    Wp (iput ip) post fault fs := by
  rw [iput, wp_bind, iputTest, wp_bind, wp_getInode]
  dsimp only
  rw [if_neg keeps, wp_pure]
  exact done

theorem Got.drop (got : Got fs ip i x)
    (done : post () (fs.put ip { x with ref := (fs.inode ip).ref })) :
    Wp (iput ip) post fault (fs.put ip x) := by
  have entry : (fs.put ip x).inode ip = x := by rw [put_inode, if_pos rfl]
  have ref := got.ref
  refine wp_iput (fun ⟨last, valid, _⟩ => ?_) ?_
  · rw [entry] at last valid
    rw [(got.new (by omega)).2.2.1] at valid
    cases valid
  · have back : (fs.put ip x).put ip { x with ref := x.ref - 1 } =
        fs.put ip { x with ref := (fs.inode ip).ref } := by
      rw [ref]
      simp only [put, Function.update_idem]
      rfl
    rw [entry, back]
    exact done

end Fs

end Xv6
