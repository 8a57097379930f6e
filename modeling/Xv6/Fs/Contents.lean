import Xv6.Fs.Alloc
import Xv6.Fs.Filling

/-!
# The contents of files

`bmap`, `readi` and `writei` on an inode that is in the cache. As the kernel sees the volume, `bmap`
fills a block of the file, `readi` of a file without holes returns its bytes and changes nothing,
and `writei` writes bytes to the file and changes no other.
-/

namespace Xv6

open Bytes (Byte getByte putBytes)
open Assignment (Exact)
open Program

namespace Fs

open Volume (Others Filled Written)

variable {fs fs' fs'' : Fs} {ip : InodePtr} {i : Word} {b x : BlockNo} {bn : Nat}
  {fault : Fault → Prop}

structure Held (fs : Fs) (ip : InodePtr) (i : Word) : Prop extends fs.Copies ip i where
  live : (fs.inode ip).din.type ≠ 0

theorem Held.live_view (held : fs.Held ip i) (wf : fs.Wf) : fs.view.Live i := by
  rw [Volume.Live, wf.view_dinode held.toCopies]
  exact held.live

theorem Held.addr_direct (held : fs.Held ip i) (wf : fs.Wf) (k : Fin (ndirect + 1)) :
    fs.view.addr i (.direct k) = (fs.inode ip).din.addrs k := by
  rw [Volume.addr, wf.view_dinode held.toCopies]

structure Works (fs : Fs) (ip : InodePtr) (i : Word) (fs' : Fs) : Prop where
  wf : fs'.Wf
  blocks : fs'.Blocks
  sb : fs'.sb = fs.sb
  outstanding : fs'.outstanding = fs.outstanding
  cache : ∃ size addrs, fs'.inode = Function.update fs.inode ip
    { fs.inode ip with din := { (fs.inode ip).din with size := size, addrs := addrs } }
  others : Others fs.view fs'.view i

theorem Works.refl (wf : fs.Wf) (blocks : fs.Blocks) (ip : InodePtr) (i : Word) :
    Works fs ip i fs where
  wf := wf
  blocks := blocks
  sb := rfl
  outstanding := rfl
  cache := ⟨_, _, (Function.update_eq_self ip fs.inode).symm⟩
  others := .refl _ _

theorem Works.trans (first : Works fs ip i fs') (second : Works fs' ip i fs'') :
    Works fs ip i fs'' where
  wf := second.wf
  blocks := second.blocks
  sb := second.sb.trans first.sb
  outstanding := second.outstanding.trans first.outstanding
  cache := by
    obtain ⟨size, addrs, same⟩ := first.cache
    obtain ⟨size', addrs', same'⟩ := second.cache
    refine ⟨size', addrs', ?_⟩
    rw [same', same, Function.update_idem, Function.update_self]
  others := first.others.trans second.others

theorem Works.inode (works : Works fs ip i fs') : ∃ size addrs, fs'.inode ip =
    { fs.inode ip with din := { (fs.inode ip).din with size := size, addrs := addrs } } := by
  obtain ⟨size, addrs, same⟩ := works.cache
  exact ⟨size, addrs, by rw [same, Function.update_self]⟩

theorem Works.inode_of_ne {ip' : InodePtr} (works : Works fs ip i fs') (other : ip' ≠ ip) :
    fs'.inode ip' = fs.inode ip' := by
  obtain ⟨size, addrs, same⟩ := works.cache
  rw [same, Function.update_of_ne other]

theorem Works.held (works : Works fs ip i fs') (held : fs.Held ip i) : fs'.Held ip i := by
  obtain ⟨size, addrs, same⟩ := works.inode
  refine ⟨⟨?_, ?_, ?_⟩, ?_⟩ <;> rw [same]
  exacts [held.ref, held.valid, held.inum, held.live]

theorem not_used (clear : fs.bit x = false) : ¬ fs.Used x := by
  rintro ⟨-, -, set⟩
  rw [clear] at set
  cases set

theorem ne_zero_of_data (start : fs.sb.dataStart ≤ x.toNat) : x ≠ 0 := by
  rintro rfl
  exact absurd start (Nat.not_le.mpr (Nat.lt_of_le_of_lt (Nat.zero_le _) fs.sb.bmapstart_lt))

theorem Blocks.gain {s : AddrSlot} (blocks : fs.Blocks) (wf : fs.Wf) (held : fs.Held ip i)
    (start : fs.sb.dataStart ≤ x.toNat) (inside : x.toNat < fs.sb.size.toNat)
    (clear : fs.bit x = false) (empty : fs.view.addr i s = 0)
    (part : ∀ j, s = .indirect j → fs.view.addr i (.direct indirectIndex) ≠ 0)
    (sb : fs'.sb = fs.sb)
    (bits : ∀ b : BlockNo, b.toNat < fs.sb.size.toNat → fs'.bit b = (fs.take x).bit b)
    (view : fs'.view = fs.view.gain i s x) : fs'.Blocks := by
  have data := wf.valid.data
  constructor
  · intro b before
    rw [sb] at before
    rw [bits b (by omega), wf.bit_take start inside (by omega), blocks.reserved b before,
      Bool.or_true]
  · rw [view]
    refine (Volume.exact_gain blocks.exact (held.live_view wf) (not_used clear)
      (ne_zero_of_data start) empty part).congr (fun _ => rfl) fun b => ?_
    rw [← wf.used_take start inside]
    constructor
    · rintro ⟨low, high, set⟩
      rw [sb] at low high
      exact ⟨low, high, bits b high ▸ set⟩
    · rintro ⟨low, high, set⟩
      rw [← bits b high] at set
      exact ⟨sb ▸ low, sb ▸ high, set⟩

def gainDirect (fs : Fs) (ip : InodePtr) (k : Fin (ndirect + 1)) (x : BlockNo) : Fs :=
  (fs.take x).put ip
    { fs.inode ip with
      din := { (fs.inode ip).din with addrs := Function.update (fs.inode ip).din.addrs k x } }

theorem works_gainDirect {k : Fin (ndirect + 1)} (wf : fs.Wf) (blocks : fs.Blocks)
    (held : fs.Held ip i) (start : fs.sb.dataStart ≤ x.toNat)
    (inside : x.toNat < fs.sb.size.toNat) (clear : fs.bit x = false)
    (empty : fs.view.addr i (.direct k) = 0) :
    Works fs ip i (fs.gainDirect ip k x) ∧
      (fs.gainDirect ip k x).view = fs.view.gain i (.direct k) x := by
  have wf₁ := wf.take start inside
  have copies : (fs.take x).Copies ip i := ⟨held.ref, held.valid, held.inum⟩
  have view : (fs.gainDirect ip k x).view = fs.view.gain i (.direct k) x := by
    have put := wf₁.view_put copies { (fs.inode ip).din with
      addrs := Function.update (fs.inode ip).din.addrs k x }
    have dinode : (fs.view.setBlock x fun _ => 0).dinode i = (fs.inode ip).din :=
      wf.view_dinode held.toCopies
    refine put.trans ?_
    rw [wf.view_take start inside, Volume.gain, Volume.setAddr, dinode]
  refine ⟨⟨wf₁.put ip _, ?_, rfl, rfl, ⟨_, _, rfl⟩, ?_⟩, view⟩
  · exact blocks.gain wf held start inside clear empty nofun rfl (fun _ _ => rfl) view
  · rw [view]
    exact Volume.others_gain blocks.exact (held.live_view wf) (not_used clear)
      (ne_zero_of_data start) empty nofun

def gainIndirect (fs : Fs) (a : BlockNo) (j : Fin blockWords) (x : BlockNo) : Fs :=
  (fs.take x).write a (Function.update (fs.disk a) j x)

theorem works_gainIndirect {a : BlockNo} {j : Fin blockWords} (wf : fs.Wf) (blocks : fs.Blocks)
    (held : fs.Held ip i) (start : fs.sb.dataStart ≤ x.toNat)
    (inside : x.toNat < fs.sb.size.toNat) (clear : fs.bit x = false)
    (whole : fs.view.addr i (.direct indirectIndex) = a) (there : a ≠ 0)
    (empty : fs.view.addr i (.indirect j) = 0) :
    Works fs ip i (fs.gainIndirect a j x) ∧
      (fs.gainIndirect a j x).view = fs.view.gain i (.indirect j) x := by
  have live := held.live_view wf
  have wf₁ := wf.take start inside
  have used : fs.Used a :=
    blocks.exact.in_use (Volume.ref_eq_some.mpr ⟨live, whole, there⟩)
  have differ : a ≠ x := by
    rintro rfl
    exact not_used clear used
  have view : (fs.gainIndirect a j x).view = fs.view.gain i (.indirect j) x := by
    have address : (fs.view.dinode i).addrs indirectIndex = a := whole
    have block : (fs.view.setBlock x fun _ => 0).block a = fs.disk a :=
      (Function.update_of_ne differ _ _).trans (Disk.volume_block used.1)
    rw [gainIndirect, wf₁.view_write used.1, wf.view_take start inside, Volume.gain,
      Volume.setAddr]
    show _ = (fs.view.setBlock x fun _ => 0).setBlock ((fs.view.dinode i).addrs indirectIndex)
      (Function.update ((fs.view.setBlock x fun _ => 0).block
        ((fs.view.dinode i).addrs indirectIndex)) j x)
    rw [address, block]
  have part : ∀ j', AddrSlot.indirect j = .indirect j' →
      fs.view.addr i (.direct indirectIndex) ≠ 0 := fun _ _ => by rwa [whole]
  refine ⟨⟨wf₁.write (wf.data_later used.1) _, ?_, rfl, rfl, (Works.refl wf blocks ip i).cache, ?_⟩,
    view⟩
  · exact blocks.gain wf held start inside clear empty part rfl
      (fun b low => wf₁.bit_write_data used.1 low) view
  · rw [view]
    exact Volume.others_gain blocks.exact live (not_used clear) (ne_zero_of_data start) empty part

theorem Wf.logs_take (wf : fs.Wf) (inside : x.toNat < fs.sb.size.toNat) :
    Logs fs (fs.take x) [x] 2 :=
  ((Logs.refl fs [x] 0).write
    (.inl ⟨(wf.bblock_later inside).2, (wf.valid.bblock_toNat inside).2⟩) _).write
    (.inr (List.mem_singleton_self x)) _

theorem wp_fillAddr {post : Word → Fs → Prop} (wf : fs.Wf) (blocks : fs.Blocks)
    (held : fs.Held ip i) (k : Fin (ndirect + 1))
    (running : fs.view.addr i (.direct k) = 0 → 0 < fs.outstanding)
    (big : fs.view.addr i (.direct k) = 0 → ∀ fs', Logs fs fs' [] 1 → fs'.LogFull →
      fault (.panic "too big a transaction"))
    (full : fs.view.addr i (.direct k) = 0 → fs.free = 0 → fault (.panic "balloc: out of blocks"))
    (present : fs.view.addr i (.direct k) ≠ 0 → post (fs.view.addr i (.direct k)) fs)
    (taken : ∀ x fs', fs.view.addr i (.direct k) = 0 → ¬ fs.Used x → x ≠ 0 →
      Works fs ip i fs' → fs'.view = fs.view.gain i (.direct k) x → fs.free = fs'.free + 1 →
      Logs fs fs' [x] 2 → post x fs') :
    Wp (fillAddr ip k) post fault fs := by
  rw [held.addr_direct wf] at running big full present taken
  rw [fillAddr, wp_bind, wp_getInode]
  dsimp only
  by_cases empty : (fs.inode ip).din.addrs k = 0
  · rw [if_pos empty, wp_bind]
    refine wf.wp_balloc blocks.reserved (running empty) (big empty) (full empty)
      fun x start inside clear => ?_
    simp only [setAddr, wp_bind, wp_getInode, wp_setInode, wp_pure]
    obtain ⟨works, view⟩ := works_gainDirect wf blocks held start inside clear
      ((held.addr_direct wf k).trans empty)
    exact taken x (fs.gainDirect ip k x) empty (not_used clear) (ne_zero_of_data start) works view
      (wf.free_take start inside clear) { wf.logs_take inside with }
  · rw [if_neg empty]
    exact present empty

def ownBlocks (v : Volume) (i : Word) (bn : Nat) : List BlockNo :=
  v.addr i (dataSlot bn) ::
    if v.addr i (.direct indirectIndex) = 0 then [] else [v.addr i (.direct indirectIndex)]

/-- What `bmap` does: the block is filled, at the cost of a free block for it and of one for the
indirect block. -/
structure Mapped (fs : Fs) (ip : InodePtr) (i : Word) (bn : Nat) (fs' : Fs) : Prop where
  works : Works fs ip i fs'
  filled : Filled fs.view fs'.view i bn
  same : fs.view.addr i (dataSlot bn) ≠ 0 → fs' = fs
  spent : fs.free + fs.view.indirects i ≤ fs'.free + fs'.view.indirects i + 1

theorem Mapped.refl (wf : fs.Wf) (blocks : fs.Blocks) (ip : InodePtr)
    (mapped : fs.view.addr i (dataSlot bn) ≠ 0) : Mapped fs ip i bn fs where
  works := .refl wf blocks ip i
  filled := .refl mapped
  same _ := rfl
  spent := Nat.le_succ _

theorem addr_gain {s : AddrSlot} (wf : fs.Wf) (blocks : fs.Blocks) (held : fs.Held ip i)
    (fresh : ¬ fs.Used x) (some : x ≠ 0) (empty : fs.view.addr i s = 0)
    (part : ∀ j, s = .indirect j → fs.view.addr i (.direct indirectIndex) ≠ 0) (s' : AddrSlot) :
    (fs.view.gain i s x).addr i s' = if s' = s then x else fs.view.addr i s' := by
  have live := held.live_view wf
  have same : ∀ s, (fs.view.setBlock x fun _ => 0).addr i s = fs.view.addr i s := fun _ =>
    Volume.addr_setUnused blocks.exact fresh some _ live
  have ready : (fs.view.setBlock x fun _ => 0).Ready i s x :=
    ⟨fun _ => ⟨by rw [same, empty], Volume.setBlock_zero _ x⟩, fun j slot => by
      rw [same]
      exact part j slot⟩
  rw [Volume.gain, Volume.addr_setAddr (Volume.exact_setUnused blocks.exact fresh some _) live ready
    live, same]
  simp only [Prod.mk.injEq, true_and]

theorem Mapped.of_gain (wf : fs.Wf) (blocks : fs.Blocks) (held : fs.Held ip i)
    (fresh : ¬ fs.Used x) (some : x ≠ 0) (low : bn < maxfile)
    (empty : fs.view.addr i (dataSlot bn) = 0)
    (there : ndirect ≤ bn → fs.view.addr i (.direct indirectIndex) ≠ 0)
    (works : Works fs ip i fs') (view : fs'.view = fs.view.gain i (dataSlot bn) x)
    (spent : fs.free = fs'.free + 1) :
    Mapped fs ip i bn fs' ∧ fs'.view.addr i (dataSlot bn) = x ∧
      fs'.view.addr i (.direct indirectIndex) = fs.view.addr i (.direct indirectIndex) := by
  have live := held.live_view wf
  have part : ∀ j, dataSlot bn = .indirect j → fs.view.addr i (.direct indirectIndex) ≠ 0 := by
    intro j slot
    refine there ?_
    by_contra direct
    obtain ⟨k, slot'⟩ := Volume.dataSlot_direct (Nat.lt_of_not_le direct)
    rw [slot'] at slot
    cases slot
  have place : fs'.view.addr i (dataSlot bn) = x := by
    rw [view, addr_gain wf blocks held fresh some empty part, if_pos rfl]
  have whole :
      fs'.view.addr i (.direct indirectIndex) = fs.view.addr i (.direct indirectIndex) := by
    rw [view, addr_gain wf blocks held fresh some empty part, if_neg (dataSlot_ne bn).symm]
  refine ⟨⟨works, ?_, fun mapped => absurd empty mapped, ?_⟩, place, whole⟩
  · rw [view]
    exact Volume.filled_gain blocks.exact live fresh some low empty there
  · rw [Volume.indirects, Volume.indirects, whole, spent]
    omega

/-- The second half of `bmap` behind the direct addresses, with the indirect block at `a`. -/
def bmapIndirect (a : BlockNo) (j : Fin blockWords) : FsM Word := do
  let data ← bread a
  if data j = 0 then
    let x ← balloc
    logWrite a (Function.update data j x)
    return x
  else return data j

section

variable (wf : fs.Wf) (blocks : fs.Blocks) (held : fs.Held ip i)
include wf blocks held

variable {post : Word → Fs → Prop}

theorem wp_bmapIndirect {a : BlockNo} {j : Fin blockWords} (low : bn < maxfile)
    (slot : dataSlot bn = .indirect j) (whole : fs.view.addr i (.direct indirectIndex) = a)
    (there : a ≠ 0) (running : fs.view.addr i (dataSlot bn) = 0 → 0 < fs.outstanding)
    (big : fs.view.addr i (dataSlot bn) = 0 → ∀ fs' x, Logs fs fs' [x] 2 → fs'.LogFull →
      fault (.panic "too big a transaction"))
    (full : fs.view.addr i (dataSlot bn) = 0 → fs.free = 0 → fault (.panic "balloc: out of blocks"))
    (done : ∀ fs', Mapped fs ip i bn fs' → Logs fs fs' (ownBlocks fs'.view i bn) 3 →
      fs'.view.addr i (.direct indirectIndex) = a → post (fs'.view.addr i (dataSlot bn)) fs') :
    Wp (bmapIndirect a j) post fault fs := by
  subst whole
  have live := held.live_view wf
  have used : fs.Used (fs.view.addr i (.direct indirectIndex)) :=
    blocks.exact.in_use (Volume.ref_eq_some.mpr ⟨live, rfl, there⟩)
  have block : fs.view.block (fs.view.addr i (.direct indirectIndex)) =
      fs.disk (fs.view.addr i (.direct indirectIndex)) := Disk.volume_block used.1
  have word : fs.view.addr i (dataSlot bn) =
      fs.disk (fs.view.addr i (.direct indirectIndex)) j := by
    rw [slot, ← block]
    exact if_neg there
  rw [bmapIndirect, wp_bind, wp_bread, ← word]
  by_cases empty : fs.view.addr i (dataSlot bn) = 0
  · rw [if_pos empty, wp_bind]
    refine wf.wp_balloc blocks.reserved (running empty)
      (fun fs' logs => big empty fs' 0 (logs.mono (List.nil_subset _) (by decide))) (full empty)
      fun x start inside clear => ?_
    have taken := wf.logs_take inside
    rw [wp_bind]
    refine wp_logWrite (taken.outstanding ▸ running empty) (big empty _ x taken) ?_
    rw [wp_pure]
    have hole : fs.view.addr i (.indirect j) = 0 := slot ▸ empty
    obtain ⟨works, view⟩ := works_gainIndirect wf blocks held start inside clear rfl there hole
    rw [← slot] at view
    obtain ⟨mapped, place, whole⟩ := Mapped.of_gain wf blocks held (not_used clear)
      (ne_zero_of_data start) low empty (fun _ => there) works view
      (by rw [wf.free_take start inside clear, gainIndirect,
        (wf.take start inside).free_write_data used.1])
    have result := done _ mapped
    rw [ownBlocks, place, whole, if_neg there] at result
    exact result ((taken.mono (by simp) (Nat.le_refl 2)).write (.inr (by simp)) _) rfl
  · rw [if_neg empty, wp_pure]
    exact done fs (.refl wf blocks ip empty) (.refl ..) rfl

theorem Mapped.of_indirect {fs₁ : Fs} (high : ndirect ≤ bn)
    (none : fs.view.addr i (.direct indirectIndex) = 0) (missing : fs.view.addr i (dataSlot bn) = 0)
    (fresh : ¬ fs.Used x) (some : x ≠ 0) (works : Works fs ip i fs₁)
    (view : fs₁.view = fs.view.gain i (.direct indirectIndex) x)
    (whole : fs₁.view.addr i (.direct indirectIndex) = x) (spent : fs.free = fs₁.free + 1)
    (mapped : Mapped fs₁ ip i bn fs') : Mapped fs ip i bn fs' := by
  have filled := mapped.filled
  have count : fs.view.indirects i = 0 := if_pos none
  have count₁ : fs₁.view.indirects i = 1 := if_neg (by rwa [whole])
  have spent' := mapped.spent
  refine ⟨works.trans mapped.works, ?_, fun there => absurd missing there, by omega⟩
  rw [view] at filled
  exact .of_gain blocks.exact (held.live_view wf) fresh some none high filled

theorem wp_bmap (low : bn < maxfile)
    (running : fs.view.addr i (dataSlot bn) = 0 → 0 < fs.outstanding)
    (big : fs.view.addr i (dataSlot bn) = 0 → ∀ fs' x a,
      (fs.view.addr i (.direct indirectIndex) ≠ 0 →
        a = fs.view.addr i (.direct indirectIndex)) → Logs fs fs' [x, a] 5 → fs'.LogFull →
      fault (.panic "too big a transaction"))
    (full : fs.view.addr i (dataSlot bn) = 0 → fs.free + fs.view.indirects i ≤ 1 →
      fault (.panic "balloc: out of blocks"))
    (done : ∀ fs', Mapped fs ip i bn fs' → Logs fs fs' (ownBlocks fs'.view i bn) 5 →
      post (fs'.view.addr i (dataSlot bn)) fs') : Wp (bmap ip bn) post fault fs := by
  have indirects : fs.view.indirects i ≤ 1 := by
    rw [Volume.indirects]
    split <;> omega
  have first : fs.view.addr i (dataSlot bn) = 0 → ∀ fs', Logs fs fs' [] 1 → fs'.LogFull →
      fault (.panic "too big a transaction") := fun empty fs' logs =>
    big empty fs' 0 (fs.view.addr i (.direct indirectIndex)) (fun _ => rfl)
      (logs.mono (List.nil_subset _) (by decide))
  rw [bmap]
  by_cases direct : bn < ndirect
  · have slot : dataSlot bn = .direct (Fin.ofNat (ndirect + 1) bn) := if_pos direct
    rw [if_pos direct]
    refine wp_fillAddr wf blocks held _ (slot ▸ running) (slot ▸ first) (fun empty none => ?_)
      (fun mapped => ?_) ?_
    · exact full (slot ▸ empty) (by omega)
    · rw [← slot] at mapped ⊢
      exact done fs (.refl wf blocks ip mapped) (.refl ..)
    · intro x fs' empty fresh some works view spent logs
      rw [← slot] at empty view
      obtain ⟨mapped, place, -⟩ := Mapped.of_gain wf blocks held fresh some low empty
        (fun high => absurd direct (Nat.not_lt.mpr high)) works view spent
      rw [← place] at logs ⊢
      exact done fs' mapped (logs.mono (by simp [ownBlocks]) (by decide))
  · have high : ndirect ≤ bn := Nat.le_of_not_lt direct
    have small : bn - ndirect < nindirect := by
      have limit : maxfile = ndirect + nindirect := rfl
      omega
    have slot : dataSlot bn = .indirect (Fin.ofNat blockWords (bn - ndirect)) := if_neg direct
    have hole : fs.view.addr i (.direct indirectIndex) = 0 → fs.view.addr i (dataSlot bn) = 0 := by
      intro none
      rw [slot]
      exact if_pos none
    rw [if_neg direct, if_pos small, wp_bind]
    refine wp_fillAddr wf blocks held _ (fun none => running (hole none))
      (fun none => first (hole none)) (fun none free => full (hole none) (by omega))
      (fun there => ?_) ?_
    · refine wp_bmapIndirect wf blocks held low slot rfl there running (fun empty fs' x logs => ?_)
        (fun empty free => full empty (by omega)) fun fs' mapped logs _ => ?_
      · exact big empty fs' x _ (fun _ => rfl) (logs.mono (by simp) (by decide))
      · exact done fs' mapped (logs.mono (List.Subset.refl _) (by decide))
    · intro x fs₁ none fresh some works view spent logs
      have whole : fs₁.view.addr i (.direct indirectIndex) = x := by
        rw [view, addr_gain wf blocks held fresh some none nofun, if_pos rfl]
      have count : fs.view.indirects i = 0 := if_pos none
      refine wp_bmapIndirect works.wf works.blocks (works.held held) low slot whole some
        (fun _ => logs.outstanding ▸ running (hole none)) (fun _ fs' x' logs' => ?_)
        (fun _ free => full (hole none) (by omega)) fun fs' mapped logs' stays => done fs' ?_ ?_
      · refine big (hole none) fs' x' x (fun there => absurd none there) ?_
        exact (logs.trans logs').mono (by simp) (by decide)
      · exact .of_indirect wf blocks held high none (hole none) fresh some works view whole spent
          mapped
      · refine (logs.trans logs').mono ?_ (Nat.le_refl 5)
        rw [ownBlocks, stays, if_neg some]
        simp

end

end Fs

end Xv6
