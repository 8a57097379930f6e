import Xv6.Fs.Entries
import Xv6.Fs.Directory
import Xv6.Library.SlotMap

/-!
# Entries of a directory

The contents of a directory are a row of slots of 16 bytes with names of at most `DIRSIZ` bytes and
inode numbers. `dirlookup` finds the slot of a name, `dirlink` fills an unused slot or one behind
the end, and `sys_unlink` empties a slot. A name is a string, which has no zero byte before its
end; of a longer name the first `DIRSIZ` bytes count.
-/

namespace Xv6

open BitVec (lt_def toNat_add ofNat ofNat_toNat setWidth_eq toNat_ofNat)
open Bytes (Byte)
open Program
open SlotMap (Table Represents put find)

abbrev Filename := {bytes : List Byte // 0 ∉ bytes}

def cut (name : Filename) : List Byte := name.val.take dirsiz

theorem byte_sub_eq_zero {a b : Byte} : (a.toNat - b.toNat : Int) = 0 ↔ a = b := by
  rw [← BitVec.toNat_inj]
  omega

theorem strncmp_eq_zero (n : Nat) {p : List Byte} (q : List Byte) (text : 0 ∉ p) :
    strncmp n p q = 0 ↔ p.take n = (q.takeWhile (· != 0)).take n := by
  induction n generalizing p q with
  | zero => simp [strncmp]
  | succ n ih =>
    rw [strncmp]
    cases p with
    | nil =>
      rw [List.headD_nil, if_neg (fun both => both.1 rfl), byte_sub_eq_zero]
      cases q with
      | nil => simp
      | cons b q =>
        by_cases zero : b = 0
        · rw [zero, List.takeWhile_cons_of_neg (by simp)]
          simp
        · rw [List.takeWhile_cons_of_pos (by simpa using zero), List.headD_cons, List.take_nil,
            List.take_succ_cons]
          exact iff_of_false (Ne.symm zero) nofun
    | cons a p =>
      rw [List.mem_cons, not_or] at text
      have first : a ≠ 0 := fun same => text.1 same.symm
      rw [List.headD_cons]
      cases q with
      | nil =>
        rw [List.headD_nil, if_neg (fun both => both.1 both.2), byte_sub_eq_zero,
          List.takeWhile_nil, List.take_nil, List.take_succ_cons]
        exact iff_of_false first nofun
      | cons b q =>
        rw [List.headD_cons, List.tail_cons, List.tail_cons]
        by_cases same : a = b
        · rw [← same, if_pos ⟨first, rfl⟩, List.takeWhile_cons_of_pos (by simpa using first),
            ih q text.2, List.take_succ_cons, List.take_succ_cons, List.cons_inj_right]
        · rw [if_neg (fun both => same both.2), byte_sub_eq_zero]
          refine iff_of_false same fun equal => ?_
          by_cases zero : b = 0
          · rw [zero, List.takeWhile_cons_of_neg (by simp)] at equal
            cases equal
          · rw [List.takeWhile_cons_of_pos (by simpa using zero), List.take_succ_cons,
              List.take_succ_cons] at equal
            exact same (List.cons.inj equal).1

theorem takeWhile_strncpy (n : Nat) {p : List Byte} (text : 0 ∉ p) :
    (strncpy n p).takeWhile (· != 0) = p.take n := by
  have all : ∀ b ∈ p.take n, (b != 0) = true := fun b member => by
    have differ : b ≠ 0 := fun same => text (same ▸ List.mem_of_mem_take member)
    simpa using differ
  rw [strncpy, List.takeWhile_append_of_pos all]
  cases n - p.length <;> simp [List.replicate_succ]

def slotOf (de : Dirent) : Option (List Byte × Word) :=
  if de.inum = 0 then none else some (de.name.takeWhile (· != 0), de.inum.setWidth 32)

def direntAt (content : List Byte) (k : Nat) : Dirent := .ofBytes ((content.drop (16 * k)).take 16)

theorem namecmp_direntAt {name : List Byte} (text : 0 ∉ name) (content : List Byte) (k : Nat) :
    namecmp name (direntAt content k).name = 0 ↔
      (direntAt content k).name.takeWhile (· != 0) = name.take dirsiz := by
  have short : ((direntAt content k).name.takeWhile (· != 0)).length ≤ dirsiz := by
    refine Nat.le_trans (List.takeWhile_prefix _).length_le ?_
    rw [direntAt, Dirent.ofBytes, List.length_drop, List.length_take]
    show min 16 _ - 2 ≤ 14
    omega
  rw [namecmp, strncmp_eq_zero dirsiz _ text, List.take_of_length_le short, eq_comm]

def slots (content : List Byte) : Table (List Byte) Word :=
  (List.range (content.length / 16)).map fun k => slotOf (direntAt content k)

theorem getElem?_slots (content : List Byte) (k : Nat) : (slots content)[k]? =
    if k < content.length / 16 then some (slotOf (direntAt content k)) else none := by
  rw [slots, List.getElem?_map]
  split
  · rename_i inside
    rw [List.getElem?_range inside, Option.map_some]
  · rename_i outside
    rw [List.getElem?_eq_none (by rw [List.length_range]; omega), Option.map_none]

theorem length_slots (content : List Byte) : (slots content).length = content.length / 16 := by
  rw [slots, List.length_map, List.length_range]

theorem length_toBytes (inum : Short) (name : List Byte) :
    (Dirent.toBytes ⟨inum, strncpy dirsiz name⟩).length = 16 := by
  rw [Dirent.toBytes, List.length_cons, List.length_cons, length_strncpy]
  rfl

theorem slots_splice {content bytes : List Byte} {k : Nat} (aligned : content.length % 16 = 0)
    (inside : k ≤ content.length / 16) (length : bytes.length = 16) :
    slots (Volume.splice content (16 * k) bytes) =
      put (slots content) k (slotOf (.ofBytes bytes)) := by
  have start : 16 * k ≤ content.length := by omega
  have size : (Volume.splice content (16 * k) bytes).length =
      max content.length (16 * k + 16) := by rw [Volume.length_splice start, length]
  have entry : ∀ j, direntAt (Volume.splice content (16 * k) bytes) j =
      if j = k then .ofBytes bytes else direntAt content j := by
    intro j
    have part : ((Volume.splice content (16 * k) bytes).drop (16 * j)).take 16 =
        if j = k then bytes else (content.drop (16 * j)).take 16 := by
      apply List.ext_getElem?
      intro o
      by_cases low : o < 16
      · rw [List.getElem?_take_of_lt low, List.getElem?_drop, Volume.getElem?_splice start, length]
        by_cases here : j = k
        · rw [if_pos here, if_pos (by omega), here, Nat.add_sub_cancel_left]
        · rw [if_neg here, if_neg (by omega), List.getElem?_take_of_lt low, List.getElem?_drop]
      · rw [List.getElem?_eq_none (by rw [List.length_take]; omega)]
        symm
        apply List.getElem?_eq_none
        split
        · omega
        · rw [List.length_take]
          omega
    rw [direntAt, part]
    split
    · rfl
    · rfl
  apply List.ext_getElem?
  intro j
  rw [SlotMap.getElem?_put (by rwa [length_slots]), getElem?_slots, getElem?_slots, size, entry]
  by_cases here : j = k
  · rw [if_pos here, if_pos here, if_pos (by omega)]
  · rw [if_neg here, if_neg here]
    split <;> split <;> first | rfl | omega

namespace Fs

variable {fs fs' : Fs} {ip : InodePtr} {i : Word} {name : List Byte} {fault : Fault → Prop}

structure Dir (fs : Fs) (ip : InodePtr) (i : Word) : Prop where
  wf : fs.Wf
  blocks : fs.Blocks
  held : fs.Held ip i
  type : (fs.inode ip).din.type = tDir
  whole : fs.view.HoleFree i
  aligned : (fs.view.content i).length % 16 = 0

namespace Dir

section

variable (dir : fs.Dir ip i)
include dir

theorem file : (fs.inode ip).din.type ≠ tDev := by
  rw [dir.type]
  decide

theorem length : (fs.view.content i).length = (fs.inode ip).din.size.toNat := by
  rw [Volume.length_content, dir.wf.view_dinode dir.held.toCopies]

theorem length_le : (fs.view.content i).length ≤ 71680 := by
  rw [Volume.length_content]
  exact dir.whole.size_le

variable {off : Word}

theorem wp_readDirent {post : Dirent → Fs → Prop} {k : Nat} {message : String}
    (place : off.toNat = 16 * k) (inside : k < (fs.view.content i).length / 16)
    (done : post (direntAt (fs.view.content i) k) fs) :
    Wp (readDirent ip off message) post fault fs := by
  have aligned := dir.aligned
  have limit := dir.length_le
  have length := dir.length
  have n : direntSize.toNat = 16 := rfl
  rw [readDirent, wp_bind]
  refine wp_readi dir.wf dir.blocks dir.held dir.file dir.whole (fun bad => ?_) fun _ _ => ?_
  · exfalso
    rcases bad with before | wraps
    · have before' := lt_def.mp before
      omega
    · have wraps' := lt_def.mp wraps
      rw [toNat_add, n] at wraps'
      omega
  · have size : (((fs.view.content i).drop off.toNat).take direntSize.toNat).length = 16 := by
      rw [List.length_take, List.length_drop, n]
      omega
    dsimp only
    rw [size, if_neg (by rw [n]; exact not_not.mpr rfl), place, n]
    exact done

variable {post : Option (InodePtr × Word) → Fs → Prop}

theorem wp_dirlookupLoop (text : 0 ∉ name) (fuel k : Nat) (place : off.toNat = 16 * k)
    (reach : k ≤ (fs.view.content i).length / 16)
    (enough : (fs.view.content i).length / 16 < k + fuel)
    (before : ∀ j v, j < k → (slots (fs.view.content i))[j]? ≠ some (some (name.take dirsiz, v)))
    (absent : find (slots (fs.view.content i)) (name.take dirsiz) = none → post none fs)
    (found : ∀ j inum, find (slots (fs.view.content i)) (name.take dirsiz) = some j →
      (slots (fs.view.content i))[j]? = some (some (name.take dirsiz, inum)) →
      Wp (iget rootDev inum) (fun ip' fs' => post (some (ip', ofNat 32 (16 * j))) fs') fault
        fs) :
    Wp (dirlookupLoop ip name fuel off) post fault fs := by
  have aligned := dir.aligned
  have limit := dir.length_le
  have length := dir.length
  induction fuel generalizing k off with
  | zero => omega
  | succ fuel ih =>
    rw [dirlookupLoop, wp_bind, wp_getInode]
    by_cases more : k < (fs.view.content i).length / 16
    · have inside : off < (fs.inode ip).din.size := by
        rw [lt_def]
        omega
      have slot := getElem?_slots (fs.view.content i) k
      rw [if_pos more] at slot
      have next : (off + direntSize).toNat = 16 * (k + 1) := by
        rw [toNat_add]
        show (off.toNat + 16) % 2 ^ 32 = _
        omega
      have later : (∀ v, (slots (fs.view.content i))[k]? ≠ some (some (name.take dirsiz, v))) →
          Wp (dirlookupLoop ip name fuel (off + direntSize)) post fault fs := fun other =>
        ih (k + 1) next more (by omega) fun j v low => by
          rcases Nat.lt_succ_iff_lt_or_eq.mp low with low' | same
          · exact before j v low'
          · exact same ▸ other v
      rw [if_pos inside, wp_bind]
      refine dir.wp_readDirent place more ?_
      split
      · rename_i unused
        refine later fun v => ?_
        rw [slot, slotOf, if_pos unused]
        nofun
      · rename_i used
        rw [slotOf, if_neg used] at slot
        split
        · rename_i same
          rw [(namecmp_direntAt text _ k).mp same] at slot
          rw [wp_bind, dir.wf.dev ip dir.held.ref]
          have word : off = ofNat 32 (16 * k) := by
            rw [← place, ofNat_toNat, setWidth_eq]
          rw [word]
          exact found k _ (SlotMap.find_eq_some_iff.mpr ⟨⟨_, slot⟩, before⟩) slot
        · rename_i differ
          refine later fun v equal => differ ?_
          rw [slot, Option.some_inj, Option.some_inj] at equal
          exact (namecmp_direntAt text _ k).mpr (congrArg Prod.fst equal)
    · have outside : ¬ off < (fs.inode ip).din.size := by
        rw [lt_def]
        omega
      rw [if_neg outside]
      refine absent (SlotMap.find_eq_none_iff.mpr fun j v there => ?_)
      by_cases low : j < k
      · exact before j v low there
      · rw [getElem?_slots, if_neg (by omega)] at there
        cases there

theorem wp_dirlookup (text : 0 ∉ name)
    (absent : find (slots (fs.view.content i)) (name.take dirsiz) = none → post none fs)
    (full : (∀ ip, 0 < (fs.inode ip).ref) → fault (.panic "iget: no inodes"))
    (found : ∀ k inum ip' x, find (slots (fs.view.content i)) (name.take dirsiz) = some k →
      (slots (fs.view.content i))[k]? = some (some (name.take dirsiz, inum)) → Got fs ip' inum x →
      post (some (ip', ofNat 32 (16 * k))) (fs.put ip' x)) :
    Wp (dirlookup ip name) post fault fs := by
  rw [dirlookup, wp_bind, wp_getInode, if_neg (not_not.mpr dir.type)]
  refine dir.wp_dirlookupLoop text _ 0 rfl (Nat.zero_le _) ?_ (fun j v low => ?_) absent
    fun k inum place slot => wp_iget dir.wf full fun ip' x got => found k inum ip' x place slot got
  · rw [dir.length]
    omega
  · exact absurd low (Nat.not_lt_zero j)

theorem wp_unusedLoop {post : Word → Fs → Prop} (fuel k : Nat) (place : off.toNat = 16 * k)
    (reach : k ≤ (fs.view.content i).length / 16)
    (enough : (fs.view.content i).length / 16 < k + fuel)
    (before : ∀ j < k, (direntAt (fs.view.content i) j).inum ≠ 0)
    (done : ∀ j, j ≤ (fs.view.content i).length / 16 →
      (∀ pair, (slots (fs.view.content i))[j]? ≠ some (some pair)) →
      (∀ j' < j, (direntAt (fs.view.content i) j').inum ≠ 0) → post (ofNat 32 (16 * j)) fs) :
    Wp (unusedLoop ip fuel off) post fault fs := by
  have aligned := dir.aligned
  have limit := dir.length_le
  have length := dir.length
  have word : off = ofNat 32 (16 * k) := by
    rw [← place, ofNat_toNat, setWidth_eq]
  induction fuel generalizing k off with
  | zero => omega
  | succ fuel ih =>
    rw [unusedLoop, wp_bind, wp_getInode]
    by_cases more : k < (fs.view.content i).length / 16
    · have inside : off < (fs.inode ip).din.size := by
        rw [lt_def]
        omega
      have next : (off + direntSize).toNat = 16 * (k + 1) := by
        rw [toNat_add]
        show (off.toNat + 16) % 2 ^ 32 = _
        omega
      rw [if_pos inside, wp_bind]
      refine dir.wp_readDirent place more ?_
      split
      · rename_i unused
        rw [wp_pure, word]
        refine done k reach (fun pair => ?_) before
        rw [getElem?_slots, if_pos more, slotOf, if_pos unused]
        nofun
      · rename_i used
        refine ih (k + 1) next more (by omega) (fun j low => ?_)
          (by rw [← next, ofNat_toNat, setWidth_eq])
        rcases Nat.lt_succ_iff_lt_or_eq.mp low with earlier | rfl
        · exact before j earlier
        · exact used
    · have outside : ¬ off < (fs.inode ip).din.size := by
        rw [lt_def]
        omega
      rw [if_neg outside, wp_pure, word]
      refine done k reach (fun pair => ?_) before
      rw [getElem?_slots, if_neg more]
      nofun

end

end Dir

theorem Dir.congr (dir : fs.Dir ip i) (wf : fs'.Wf) (sb : fs'.sb = fs.sb)
    (disk : fs'.disk = fs.disk) (view : fs'.view = fs.view) (ref : 0 < (fs'.inode ip).ref)
    (valid : (fs'.inode ip).valid = (fs.inode ip).valid)
    (inum : (fs'.inode ip).inum = (fs.inode ip).inum)
    (din : (fs'.inode ip).din = (fs.inode ip).din) : fs'.Dir ip i where
  wf := wf
  blocks := by
    have bits : ∀ b, fs'.bit b = fs.bit b := fun b => by rw [bit, bit, disk, sb]
    refine ⟨fun b before => ?_, ?_⟩
    · rw [sb] at before
      rw [bits, dir.blocks.reserved b before]
    · rw [view]
      exact dir.blocks.exact.congr (fun _ => rfl) fun b => by rw [Used, Used, bits, sb]
  held := ⟨⟨ref, valid.trans dir.held.valid, inum.trans dir.held.inum⟩, din ▸ dir.held.live⟩
  type := din ▸ dir.type
  whole := view ▸ dir.whole
  aligned := view ▸ dir.aligned

/-- The directory got new contents, and no reference to an inode was kept or lost. -/
structure Changed (fs : Fs) (ip : InodePtr) (i : Word) (content : List Byte) (fs' : Fs) :
    Prop where
  dir : fs'.Dir ip i
  content : fs'.view.content i = content
  ref : ∀ ip, (fs'.inode ip).ref = (fs.inode ip).ref
  sb : fs'.sb = fs.sb
  outstanding : fs'.outstanding = fs.outstanding

theorem Dir.changed {k : Nat} {bytes : List Byte} (dir : fs.Dir ip i)
    (inside : k ≤ (fs.view.content i).length / 16) (length : bytes.length = 16)
    (wrote : Wrote fs ip i (16 * k) bytes fs') :
    Changed fs ip i (Volume.splice (fs.view.content i) (16 * k) bytes) fs' := by
  have aligned := dir.aligned
  have works := wrote.works
  obtain ⟨size, addrs, entry⟩ := works.inode
  refine ⟨⟨works.wf, works.blocks, works.held dir.held, ?_, wrote.whole, ?_⟩, wrote.content,
    fun ip' => ?_, works.sb, works.outstanding⟩
  · rw [entry]
    exact dir.type
  · rw [wrote.content, Volume.length_splice (by omega), length]
    omega
  · by_cases same : ip' = ip
    · rw [same, entry]
    · rw [works.inode_of_ne same]

variable {ip' : InodePtr}

theorem Got.dropped {j : Word} {x : Inode} (got : Got fs ip' j x) (dir : fs.Dir ip i) :
    Changed fs ip i (fs.view.content i)
      (fs.put ip' { x with ref := (fs.inode ip').ref }) := by
  rcases Nat.eq_zero_or_pos (fs.inode ip').ref with none | some
  · have unused : ¬ 0 < (fs.inode ip').ref := by omega
    have wf : (fs.put ip' { x with ref := (fs.inode ip').ref }).Wf :=
      dir.wf.put_entry (fun ref => absurd ref unused) (fun ref => absurd ref unused)
        fun ref => absurd ref unused
    have view := dir.wf.view_entry wf (.inr ⟨fun ref => absurd ref unused,
      fun ref => absurd ref unused⟩)
    have other : ip ≠ ip' := by
      rintro rfl
      exact unused dir.held.ref
    have same : (fs.put ip' { x with ref := (fs.inode ip').ref }).inode ip = fs.inode ip := by
      rw [put_inode, if_neg other]
    refine ⟨dir.congr wf rfl rfl view ?_ ?_ ?_ ?_, by rw [view], fun ip'' => ?_, rfl, rfl⟩
    · rw [same]
      exact dir.held.ref
    · rw [same]
    · rw [same]
    · rw [same]
    · rw [put_inode]
      split
      · rename_i here
        rw [here]
      · rfl
  · have back : { x with ref := (fs.inode ip').ref } = fs.inode ip' := by rw [got.kept some]
    have whole : fs.put ip' (fs.inode ip') = fs := by rw [put, Function.update_eq_self]
    rw [back, whole]
    exact ⟨dir, rfl, fun _ => rfl, rfl, rfl⟩

theorem Got.dir {j : Word} {x : Inode} (got : Got fs ip' j x) (dir : fs.Dir ip i) :
    (fs.put ip' x).Dir ip i := by
  have wf := got.wf dir.wf
  have view := got.view dir.wf
  by_cases same : ip = ip'
  · subst same
    have entry : (fs.put ip x).inode ip = { fs.inode ip with ref := x.ref } := by
      rw [put_inode, if_pos rfl, ← got.kept dir.held.ref]
    have some : 0 < x.ref := by
      rw [got.ref]
      exact Nat.succ_pos _
    refine dir.congr wf rfl rfl view ?_ ?_ ?_ ?_ <;> rw [entry]
    exact some
  · have entry : (fs.put ip' x).inode ip = fs.inode ip := by rw [put_inode, if_neg same]
    refine dir.congr wf rfl rfl view ?_ ?_ ?_ ?_ <;> rw [entry]
    exact dir.held.ref

namespace Dir

theorem rangeBlocks_entry (k : Nat) : rangeBlocks (16 * k) 16 = 1 := by
  rw [rangeBlocks, if_neg (by decide)]
  show (16 * k + 16 - 1) / 512 + 1 - 16 * k / 512 = 1
  omega

theorem missing_entry (v : Volume) (i : Word) (k : Nat) : v.missing i (16 * k) 16 ≤ 1 := by
  rw [Volume.missing, Finset.card_le_one]
  intro bn member bn' member'
  obtain ⟨-, ⟨-, low, high⟩, -⟩ := Finset.mem_filter.mp member
  obtain ⟨-, ⟨-, low', high'⟩, -⟩ := Finset.mem_filter.mp member'
  have size : bsize = 512 := rfl
  rw [size] at low high low' high'
  omega

theorem wp_dirlink {post : Int → Fs → Prop} {inum : Word} (dir : fs.Dir ip i) (text : 0 ∉ name)
    (running : 0 < fs.outstanding) (room : fs.HasRoom 6)
    (exhausted : fs.free + fs.view.indirects i ≤ 1 → fault (.panic "balloc: out of blocks"))
    (large : (fs.view.content i).length = maxfile * bsize →
      (∀ k < (fs.view.content i).length / 16, (direntAt (fs.view.content i) k).inum ≠ 0) →
      fault (.panic "dirlink"))
    (full : (∀ ip, 0 < (fs.inode ip).ref) → fault (.panic "iget: no inodes"))
    (present : ∀ k fs', find (slots (fs.view.content i)) (name.take dirsiz) = some k →
      Changed fs ip i (fs.view.content i) fs' → post (-1) fs')
    (done : ∀ k fs', find (slots (fs.view.content i)) (name.take dirsiz) = none →
      k ≤ (fs.view.content i).length / 16 →
      (∀ pair, (slots (fs.view.content i))[k]? ≠ some (some pair)) →
      Changed fs ip i (Volume.splice (fs.view.content i) (16 * k)
        (Dirent.toBytes ⟨inum.setWidth 16, strncpy dirsiz name⟩)) fs' → post 0 fs') :
    Wp (dirlink ip name inum) post fault fs := by
  rw [dirlink, wp_bind]
  refine dir.wp_dirlookup text (fun absent => ?_) full fun k j ip' x found _ got => ?_
  · rw [wp_bind, wp_getInode, wp_bind]
    refine dir.wp_unusedLoop _ 0 rfl (Nat.zero_le _) (by rw [dir.length]; omega) nofun
      fun k inside unused used => ?_
    have limit := dir.length_le
    have off : (ofNat 32 (16 * k)).toNat = 16 * k := by
      rw [toNat_ofNat]
      omega
    have n : direntSize.toNat = 16 := rfl
    have length := length_toBytes (inum.setWidth 16) name
    rw [wp_bind]
    refine wp_writei dir.wf dir.blocks dir.held dir.file dir.whole length (fun bad => ?_) running
      (fun fs' logs full => ?_) (fun _ short => exhausted ?_) fun fs' _ wrote => ?_
    · rw [Fits, off, n, BitVec.le_def, off, ← dir.length] at bad
      have bound : maxfile * bsize = 71680 := rfl
      have ends : (fs.view.content i).length = maxfile * bsize := by
        rw [bound] at bad ⊢
        omega
      obtain rfl : k = (fs.view.content i).length / 16 := by
        rw [bound] at bad
        omega
      exact large ends used
    · rw [off, n, rangeBlocks_entry] at logs
      obtain ⟨_, _, -, -, logs⟩ := logs
      exact absurd full (room.not_full logs)
    · rw [off, n] at short
      exact short.trans (missing_entry ..)
    rw [if_neg (not_not.mpr rfl), wp_pure]
    rw [off] at wrote
    exact done k fs' absent inside unused (dir.changed inside length wrote)
  · rw [wp_bind]
    refine got.drop ?_
    rw [wp_pure]
    exact present k _ found (got.dropped dir)

end Dir

/-- The part of `sys_unlink` on a directory: the entry of a name is found and overwritten with
zeros. -/
def unlinkEntry (dp : InodePtr) (name : List Byte) : FsM Int := do
  match ← dirlookup dp name with
  | none => return -1
  | some (ip, off) =>
    if (← writei dp (List.replicate 16 0) off direntSize) ≠ direntSize.toNat then
      throw (.panic "unlink: writei")
    iput ip
    return 0

theorem Dir.wp_drop {post : Unit → Fs → Prop} (dir : fs.Dir ip i)
    (spare : (fs.inode ip').ref = 1 → (fs.inode ip').valid = false)
    (done : ∀ fs', fs'.Dir ip i → fs'.view = fs.view → (∀ ip'', (fs'.inode ip'').ref =
      if ip'' = ip' then (fs.inode ip').ref - 1 else (fs.inode ip'').ref) → fs'.sb = fs.sb →
      fs'.outstanding = fs.outstanding → post () fs') :
    Wp (iput ip') post fault fs := by
  have invalid : (fs.inode ip').ref = 1 → (fs.inode ip').valid ≠ true := fun last holds => by
    rw [spare last] at holds
    cases holds
  refine wp_iput (fun ⟨last, valid, _⟩ => invalid last valid) ?_
  have view := dir.wf.view_drop ip' fun last _ valid => absurd valid (invalid last)
  have entries : ∀ ip'',
      (fs.put ip' { fs.inode ip' with ref := (fs.inode ip').ref - 1 }).inode ip'' =
      { fs.inode ip'' with
        ref := if ip'' = ip' then (fs.inode ip').ref - 1 else (fs.inode ip'').ref } := by
    intro ip''
    rw [put_inode]
    split
    · rename_i same
      rw [same]
    · rfl
  refine done _ (dir.congr (dir.wf.drop ip') rfl rfl view ?_ ?_ ?_ ?_) view (fun ip'' => ?_) rfl rfl
  · rw [entries]
    have some := dir.held.ref
    split
    · rename_i same
      subst same
      have several : (fs.inode ip).ref ≠ 1 := fun last => invalid last dir.held.valid
      show 0 < (fs.inode ip).ref - 1
      omega
    · exact some
  all_goals rw [entries]

theorem Dir.wp_unlinkEntry {post : Int → Fs → Prop} (dir : fs.Dir ip i) (text : 0 ∉ name)
    (running : 0 < fs.outstanding) (room : fs.HasRoom 6)
    (full : (∀ ip, 0 < (fs.inode ip).ref) → fault (.panic "iget: no inodes"))
    (absent : find (slots (fs.view.content i)) (name.take dirsiz) = none → post (-1) fs)
    (done : ∀ k j fs', find (slots (fs.view.content i)) (name.take dirsiz) = some k →
      (slots (fs.view.content i))[k]? = some (some (name.take dirsiz, j)) →
      Changed fs ip i (Volume.splice (fs.view.content i) (16 * k) (List.replicate 16 0)) fs' →
      post 0 fs') :
    Wp (unlinkEntry ip name) post fault fs := by
  rw [unlinkEntry, wp_bind]
  refine dir.wp_dirlookup text absent full fun k j ip' x found slot got => ?_
  have dir₁ := got.dir dir
  have view := got.view dir.wf
  have inside : k < (fs.view.content i).length / 16 := by
    rw [← length_slots]
    exact (List.getElem?_eq_some_iff.mp slot).1
  have limit := dir.length_le
  have off : (ofNat 32 (16 * k)).toNat = 16 * k := by
    rw [toNat_ofNat]
    omega
  have zeros : (List.replicate 16 (0 : Byte)).length = direntSize.toNat := rfl
  have n : direntSize.toNat = 16 := rfl
  have length₁ := dir₁.length
  rw [view] at length₁
  dsimp only
  rw [wp_bind]
  refine wp_writei dir₁.wf dir₁.blocks dir₁.held dir₁.file dir₁.whole zeros (fun large => ?_)
    running (fun fs' logs full => ?_) (fun more => ?_) fun fs₂ _ wrote => ?_
  · refine absurd ⟨?_, ?_⟩ large
    · rw [BitVec.le_def, off]
      omega
    · rw [off, n]
      show _ ≤ 71680
      omega
  · rw [off, n, Dir.rangeBlocks_entry] at logs
    obtain ⟨_, _, -, -, logs⟩ := logs
    have room₁ : (fs.put ip' x).HasRoom 6 := room
    exact absurd full (room₁.not_full logs)
  · rw [dir₁.whole.missing] at more
    · exact absurd more (Nat.lt_irrefl 0)
    · rw [← Volume.length_content, view, off, n]
      omega
  · rw [if_neg (not_not.mpr rfl), wp_bind]
    rw [off] at wrote
    have changed := dir₁.changed (by rw [view]; omega) rfl wrote
    have entry : (fs.put ip' x).inode ip' = x := by rw [put_inode, if_pos rfl]
    have ref : (fs₂.inode ip').ref = (fs.inode ip').ref + 1 := by
      rw [changed.ref, entry, got.ref]
    refine changed.dir.wp_drop (fun last => ?_) fun fs₃ dir₃ view₃ refs sb₃ outstanding₃ => ?_
    · have none : (fs.inode ip').ref = 0 := by omega
      have other : ip' ≠ ip := by
        rintro rfl
        exact absurd dir.held.ref (by omega)
      rw [wrote.works.inode_of_ne other, entry]
      exact (got.new none).2.2.1
    · rw [wp_pure]
      refine done k j fs₃ found slot ⟨dir₃, by rw [view₃, changed.content, view], fun ip'' => ?_,
        sb₃.trans changed.sb, outstanding₃.trans changed.outstanding⟩
      rw [refs]
      split
      · rename_i same
        rw [same, ref, Nat.add_sub_cancel]
      · rename_i other
        rw [changed.ref, put_inode, if_neg other]

end Fs

end Xv6
