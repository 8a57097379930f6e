import Xv6.Fs.View

/-!
# What the functions on contents leave of the inode cache

Reading and writing the contents of an inode changes its addresses and its size in the cache, and
no other entry, and ends no operation. These facts hold in every state, whatever is on the disk,
for all outcomes that are not faults.
-/

namespace Xv6

open Bytes (Byte)
open Program

namespace Fs

variable {fs fs' fs'' : Fs} {ip : InodePtr}

theorem put_self (fs : Fs) (ip : InodePtr) (inode : Inode) :
    (fs.put ip inode).inode ip = inode := by
  show Function.update fs.inode ip inode ip = inode
  exact Function.update_self ..

def SameCache (fs fs' : Fs) : Prop := fs'.inode = fs.inode ∧ fs'.outstanding = fs.outstanding

def Readdressed (fs fs' : Fs) (ip : InodePtr) : Prop :=
  (∃ addrs, fs'.inode = Function.update fs.inode ip
    { fs.inode ip with din := { (fs.inode ip).din with addrs := addrs } }) ∧
  fs'.outstanding = fs.outstanding

def Resized (fs fs' : Fs) (ip : InodePtr) : Prop :=
  (∃ size addrs, fs'.inode = Function.update fs.inode ip
    { fs.inode ip with din := { (fs.inode ip).din with size := size, addrs := addrs } }) ∧
  fs'.outstanding = fs.outstanding

theorem Readdressed.refl (ip : InodePtr) (same : SameCache fs fs') : Readdressed fs fs' ip :=
  ⟨⟨_, same.1.trans (Function.update_eq_self ip fs.inode).symm⟩, same.2⟩

theorem Readdressed.trans (first : Readdressed fs fs' ip) (second : Readdressed fs' fs'' ip) :
    Readdressed fs fs'' ip := by
  obtain ⟨⟨addrs, first⟩, running⟩ := first
  obtain ⟨⟨addrs', second⟩, running'⟩ := second
  refine ⟨⟨addrs', ?_⟩, running'.trans running⟩
  rw [second, first, Function.update_self, Function.update_idem]

theorem Readdressed.entry (changed : Readdressed fs fs' ip) :
    ∃ addrs, fs'.inode ip = { fs.inode ip with din := { (fs.inode ip).din with addrs := addrs } } :=
  changed.1.imp fun addrs same => by rw [same, Function.update_self]

theorem Readdressed.resized (changed : Readdressed fs fs' ip) : Resized fs fs' ip := by
  obtain ⟨⟨addrs, same⟩, running⟩ := changed
  exact ⟨⟨_, addrs, same⟩, running⟩

theorem Resized.trans (first : Resized fs fs' ip) (second : Resized fs' fs'' ip) :
    Resized fs fs'' ip := by
  obtain ⟨⟨_, _, first⟩, running⟩ := first
  obtain ⟨⟨size, addrs, second⟩, running'⟩ := second
  refine ⟨⟨size, addrs, ?_⟩, running'.trans running⟩
  rw [second, first, Function.update_self, Function.update_idem]

theorem wp_same {α β : Type} {first : FsM β} {second : β → FsM α} {post : α → Fs → Prop}
    (same : Wp first (fun _ fs' => SameCache fs fs') (fun _ => True) fs)
    (rest : ∀ value fs', SameCache fs fs' → Wp (second value) post (fun _ => True) fs') :
    Wp (first >>= second) post (fun _ => True) fs := by
  rw [wp_bind]
  exact same.imp rest

theorem wp_ballocLoop_cache (fuel b : Nat) :
    Wp (ballocLoop fuel b) (fun _ fs' => SameCache fs fs') (fun _ => True) fs := by
  induction fuel generalizing b with
  | zero => trivial
  | succ fuel ih =>
    rw [ballocLoop, wp_bind, wp_get]
    dsimp only
    split
    · rw [wp_bind, wp_bread]
      split
      · rw [wp_bind]
        refine wp_logWrite_any ?_
        rw [wp_bind, bzero]
        exact wp_logWrite_any ⟨rfl, rfl⟩
      · exact ih _
    · trivial

theorem wp_balloc_cache : Wp balloc (fun _ fs' => SameCache fs fs') (fun _ => True) fs := by
  rw [balloc, wp_bind, wp_get]
  exact wp_ballocLoop_cache _ _

theorem wp_iupdate_cache (ip : InodePtr) :
    Wp (iupdate ip) (fun _ fs' => SameCache fs fs') (fun _ => True) fs := by
  rw [iupdate, wp_bind, wp_getInode, wp_bind, wp_get, wp_bind, wp_bread]
  exact wp_logWrite_any ⟨rfl, rfl⟩

theorem wp_setAddr_cache (k : Fin (ndirect + 1)) (x : Word) :
    Wp (setAddr ip k x) (fun _ fs' => Readdressed fs fs' ip) (fun _ => True) fs :=
  ⟨⟨_, rfl⟩, rfl⟩

theorem wp_fillAddr_cache (k : Fin (ndirect + 1)) :
    Wp (fillAddr ip k) (fun _ fs' => Readdressed fs fs' ip) (fun _ => True) fs := by
  rw [fillAddr, wp_bind, wp_getInode]
  dsimp only
  split
  · refine wp_same wp_balloc_cache fun addr fs₁ same => ?_
    rw [wp_bind]
    refine (wp_setAddr_cache k addr).imp fun _ fs₂ changed => ?_
    exact (Readdressed.refl ip same).trans changed
  · exact .refl ip ⟨rfl, rfl⟩

theorem wp_bmap_cache (bn : Nat) :
    Wp (bmap ip bn) (fun _ fs' => Readdressed fs fs' ip) (fun _ => True) fs := by
  rw [bmap]
  split
  · exact wp_fillAddr_cache _
  · split
    · rw [wp_bind]
      refine (wp_fillAddr_cache indirectIndex).imp fun addr fs₁ filled => ?_
      rw [wp_bind, wp_bread]
      dsimp only
      split
      · refine wp_same wp_balloc_cache fun x fs₂ same => ?_
        rw [wp_bind]
        refine wp_logWrite_any ?_
        rw [wp_pure]
        exact filled.trans (.refl ip same)
      · exact filled
    · trivial

theorem wp_readLoop_cache (fuel off n : Nat) :
    Wp (readLoop ip fuel off n) (fun _ fs' => Readdressed fs fs' ip) (fun _ => True) fs := by
  induction fuel generalizing off n fs with
  | zero => cases n with
    | zero => exact .refl ip ⟨rfl, rfl⟩
    | succ n => trivial
  | succ fuel ih => cases n with
    | zero => exact .refl ip ⟨rfl, rfl⟩
    | succ n =>
      rw [readLoop, wp_bind]
      refine (wp_bmap_cache _).imp fun addr fs₁ mapped => ?_
      rw [wp_bind, wp_bread, wp_bind]
      refine (ih _ _).imp fun bytes fs₂ read => ?_
      exact mapped.trans read

theorem wp_writeLoop_cache (fuel off : Nat) (src : List Byte) :
    Wp (writeLoop ip fuel off src) (fun _ fs' => Readdressed fs fs' ip) (fun _ => True) fs := by
  induction fuel generalizing off src fs with
  | zero => cases src with
    | nil => exact .refl ip ⟨rfl, rfl⟩
    | cons => trivial
  | succ fuel ih => cases src with
    | nil => exact .refl ip ⟨rfl, rfl⟩
    | cons byte src =>
      rw [writeLoop, wp_bind]
      refine (wp_bmap_cache _).imp fun addr fs₁ mapped => ?_
      rw [wp_bind, wp_bread, wp_bind]
      refine wp_logWrite_any ((ih _ _).imp fun _ fs₂ wrote => ?_)
      exact mapped.trans wrote

theorem wp_readi_file {off n : Word} (file : (fs.inode ip).din.type ≠ tDev) :
    Wp (readi ip off n) (fun r fs' => Readdressed fs fs' ip ∧
      ∀ bytes, r = .ok bytes → off.toNat + bytes.length ≤ (fs.inode ip).din.size.toNat)
      (fun _ => True) fs := by
  rw [readi, wp_bind, wp_get]
  dsimp only
  rw [if_neg file]
  split
  · exact ⟨.refl ip ⟨rfl, rfl⟩, fun _ failed => by cases failed⟩
  · rename_i fits
    obtain ⟨inside, straight⟩ := not_or.mp fits
    have inside' := Nat.le_of_not_lt inside
    have straight' := Nat.le_of_not_lt straight
    rw [BitVec.toNat_add] at straight'
    simp only [wp_bind, wp_pure]
    refine Wp.using (wp_readLoop_length ..) ((wp_readLoop_cache ..).imp ?_)
    intro bytes fs' changed length
    refine ⟨changed, fun bytes' same => ?_⟩
    cases same
    rw [length]
    split
    · rw [BitVec.toNat_sub]
      omega
    · rename_i short
      have short' := Nat.le_of_not_lt short
      rw [BitVec.toNat_add] at short'
      omega

/-- What `writei` does to the cache: nothing, or the addresses of the inode change and its size
grows to the end of what was written, which is within the maximum. -/
structure Extended (fs fs' : Fs) (ip : InodePtr) (off n : Word) : Prop where
  resized : Resized fs fs' ip
  size : (fs'.inode ip).din.size = (fs.inode ip).din.size ∨ (fs'.inode ip).din.size = off + n
  fits : off.toNat + n.toNat ≤ maxfile * bsize

theorem wp_writei_file {src : List Byte} {off n : Word} (file : (fs.inode ip).din.type ≠ tDev) :
    Wp (writei ip src off n) (fun r fs' => (r = -1 ∧ fs' = fs) ∨
      (r = n.toInt ∧ Extended fs fs' ip off n)) (fun _ => True) fs := by
  rw [writei, wp_bind, wp_get]
  dsimp only
  rw [if_neg file]
  split
  · exact .inl ⟨rfl, rfl⟩
  · rename_i straight
    split
    · exact .inl ⟨rfl, rfl⟩
    · rename_i within
      have straight' := Nat.le_of_not_lt (not_or.mp straight).2
      have within' := Nat.le_of_not_lt within
      have limit : (BitVec.ofNat 32 (maxfile * bsize)).toNat = maxfile * bsize := rfl
      rw [BitVec.toNat_add] at straight'
      rw [BitVec.toNat_add, limit] at within'
      have sum : (off.toNat + n.toNat) % 2 ^ 32 = off.toNat + n.toNat := by omega
      rw [sum] at within'
      rw [wp_bind]
      refine (wp_writeLoop_cache ..).imp fun _ fs₁ wrote => ?_
      obtain ⟨addrs, entry⟩ := wrote.entry
      split
      · rw [wp_bind, wp_getInode, wp_bind, wp_setInode, wp_bind]
        refine (wp_iupdate_cache ip).imp fun _ fs₂ same => ?_
        rw [wp_pure]
        refine .inr ⟨rfl, wrote.resized.trans ⟨⟨off + n, _, same.1⟩, same.2⟩, .inr ?_, within'⟩
        rw [same.1, put_self]
      · rw [wp_pure]
        refine .inr ⟨rfl, wrote.resized, .inl ?_, within'⟩
        rw [entry]

theorem wp_ilock_valid (valid : (fs.inode ip).valid = true) :
    Wp (ilock ip) (fun _ fs' => (fs.inode ip).busy = false ∧
      fs' = fs.put ip { fs.inode ip with busy := true }) (fun _ => True) fs := by
  rw [ilock, wp_bind, wp_getInode]
  split
  · trivial
  · split
    · trivial
    · rename_i free
      exact ⟨Bool.eq_false_iff.mpr free, rfl⟩

theorem wp_beginOp : Wp beginOp (fun _ fs' => fs' = { fs with outstanding := fs.outstanding + 1 })
    (fun _ => True) fs := by
  rw [beginOp, wp_bind, wp_get]
  split
  · trivial
  · rfl

theorem wp_iunlock_free :
    Wp (iunlock ip) (fun _ fs' => fs' = fs.put ip { fs.inode ip with busy := false })
      (fun _ => True) fs := by
  rw [iunlock, wp_bind, wp_getInode]
  split
  · trivial
  · rfl

end Fs

end Xv6
