import Xv6.Fs.Lookup

/-!
# Directories as maps

A directory that was empty and is changed by `dirlink` and by the zeroing of entries in
`sys_unlink`, each between `begin_op` and `end_op`, is a finite map from names, of which the first
`DIRSIZ` bytes count, to inode numbers: the results are those of the map, `dirlookup` finds what the
map has, and an operation on one name leaves the entries of the others.
-/

namespace Xv6

open Bytes (Byte putBytes)
open Program
open SlotMap (Represents)

abbrev Names := List Byte → Option Word

/-- A change of a directory. -/
inductive DirOp where
  | link (name : Filename) (inum : Word)
  | unlink (name : Filename)

namespace DirOp

def name : DirOp → Filename
  | link name _ => name
  | unlink name => name

def Linked : DirOp → Prop
  | link _ inum => inum ≠ 0
  | unlink _ => True

def Short : DirOp → Prop
  | link _ inum => inum ≠ 0 ∧ inum.toNat < 2 ^ 16
  | unlink _ => True

def run (dp : InodePtr) : DirOp → FsM Int
  | link name inum => Fs.transaction (Fs.dirlink dp name.val inum)
  | unlink name => Fs.transaction (Fs.unlinkEntry dp name.val)

def runAll (dp : InodePtr) : List DirOp → FsM (List Int)
  | [] => return []
  | op :: rest => do
    let r ← op.run dp
    return r :: (← runAll dp rest)

/-- The operation on the map: a name is linked once, and unlinked when it is linked. -/
def apply (names : Names) : DirOp → Int × Names
  | link name inum =>
    if (names (cut name)).isSome then (-1, names)
    else (0, Function.update names (cut name) (some inum))
  | unlink name =>
    if (names (cut name)).isSome then (0, Function.update names (cut name) none) else (-1, names)

def applyAll (names : Names) : List DirOp → List Int × Names
  | [] => ([], names)
  | op :: rest => ((op.apply names).1 :: (applyAll (op.apply names).2 rest).1,
      (applyAll (op.apply names).2 rest).2)

end DirOp

namespace Fs

variable {fs fs' : Fs} {ip : InodePtr} {i : Word} {names : Names} {fault : Fault → Prop}

def entryOf (fs : Fs) (i : Word) (name : Filename) : Option (Nat × Word) :=
  (SlotMap.find (slots (fs.view.content i)) (cut name)).bind fun k =>
    (slots (fs.view.content i))[k]?.join.map fun pair => (16 * k, pair.2)

def CacheFull (fs : Fs) (fault : Fault) : Prop :=
  fault = .panic "iget: no inodes" ∧ ∀ ip, 0 < (fs.inode ip).ref

/-- The ways to stop: there is no block left for the directory, it has the maximal size with all
entries in use, or the inode cache is full. -/
def Exhausted (fs : Fs) (i : Word) (fault : Fault) : Prop :=
  fault = .panic "balloc: out of blocks" ∧ fs.free + fs.view.indirects i ≤ 1 ∨
    fault = .panic "dirlink" ∧ (fs.view.content i).length = maxfile * bsize ∧
      (∀ k < (fs.view.content i).length / 16, (direntAt (fs.view.content i) k).inum ≠ 0) ∨
    fs.CacheFull fault

def Stops (dp : InodePtr) (i : Word) : List DirOp → Fs → Fault → Prop
  | [], _, _ => False
  | op :: rest, fs, fault => Exhausted fs i fault ∨
      ∃ r fs', (op.run dp).run fs = .ok (r, fs') ∧ Stops dp i rest fs' fault

structure Quiet (fs : Fs) : Prop where
  outstanding : fs.outstanding = 0
  logged : fs.logged = []
  nlog : fs.sb.nlog.toInt = logSize

def begun (fs : Fs) : Fs := { fs with outstanding := 1 }

def ended (fs : Fs) : Fs := { fs with outstanding := 0, logged := [] }

section

variable (quiet : fs.Quiet)
include quiet

theorem Quiet.wp_transaction {α : Type} {body : FsM α} {post : α → Fs → Prop}
    (ran : Wp body (fun r fs' => fs'.outstanding = 1 ∧ post r fs'.ended) fault fs.begun) :
    Wp (transaction body) post fault fs := by
  have room : ¬ logSize < fs.logged.length + (fs.outstanding + 1) * maxOpBlocks := by
    rw [quiet.logged, quiet.outstanding]
    decide
  have first : { fs with outstanding := fs.outstanding + 1 } = fs.begun := by
    rw [quiet.outstanding, begun]
  rw [transaction, wp_bind, beginOp, wp_bind, wp_get, if_neg room]
  show Wp _ _ _ { fs with outstanding := fs.outstanding + 1 }
  rw [first, wp_bind]
  refine ran.imp fun r fs' ⟨one, holds⟩ => ?_
  rw [wp_bind, endOp, wp_bind, wp_get]
  show post r { fs' with
    outstanding := fs'.outstanding - 1
    logged := if fs'.outstanding - 1 = 0 then [] else fs'.logged }
  rw [one]
  exact holds

theorem Quiet.room : fs.begun.HasRoom 6 := by
  rw [HasRoom]
  show fs.logged.length + 6 < logSize ∧ (fs.logged.length + 6 : Int) < fs.sb.nlog.toInt - 1
  rw [quiet.logged, quiet.nlog]
  decide

end

theorem Wf.begun (wf : fs.Wf) : fs.begun.Wf :=
  ⟨wf.valid, wf.super, wf.unique, wf.dev, wf.known⟩

theorem Wf.ended (wf : fs.Wf) : fs.ended.Wf :=
  ⟨wf.valid, wf.super, wf.unique, wf.dev, wf.known⟩

theorem Dir.begun (dir : fs.Dir ip i) : fs.begun.Dir ip i :=
  dir.congr dir.wf.begun rfl rfl rfl dir.held.ref rfl rfl rfl

theorem Changed.ended {content : List Byte} (quiet : fs.Quiet)
    (changed : Changed fs.begun ip i content fs') :
    Changed fs ip i content fs'.ended ∧ fs'.ended.Quiet :=
  ⟨⟨changed.dir.congr changed.dir.wf.ended rfl rfl rfl changed.dir.held.ref rfl rfl rfl,
    changed.content, changed.ref, changed.sb, quiet.outstanding.symm⟩, rfl, rfl,
    changed.sb ▸ quiet.nlog⟩

structure IsMap (fs : Fs) (ip : InodePtr) (i : Word) (names : Names) : Prop where
  dir : fs.Dir ip i
  represents : Represents (slots (fs.view.content i)) names
  quiet : fs.Quiet

variable {inum : Word} {op : DirOp}

theorem slotOf_link (name : Filename) (some : inum ≠ 0) (short : inum.toNat < 2 ^ 16) :
    slotOf (.ofBytes (Dirent.toBytes ⟨inum.setWidth 16, strncpy dirsiz name.val⟩)) =
      .some (cut name, inum) := by
  have value : (inum.setWidth 16).toNat = inum.toNat := by
    rw [BitVec.toNat_setWidth, Nat.mod_eq_of_lt short]
  have nonzero : inum.setWidth 16 ≠ 0 := fun zero => some <| BitVec.eq_of_toNat_eq <| by
    rw [← value, zero]
    rfl
  have back : (inum.setWidth 16).setWidth 32 = inum := BitVec.eq_of_toNat_eq <| by
    rw [BitVec.toNat_setWidth, value, Nat.mod_eq_of_lt inum.isLt]
  rw [Dirent.ofBytes_toBytes, slotOf, if_neg nonzero]
  show Option.some (List.takeWhile _ (strncpy dirsiz name.val), _) = _
  rw [takeWhile_strncpy dirsiz name.property, back]
  rfl

/-- What an operation did: its result and the map after it are those of the map, a failing one
leaves the directory as it is, and the entries of other names stay. -/
structure Stepped (fs : Fs) (ip : InodePtr) (i : Word) (names : Names) (op : DirOp) (r : Int)
    (fs' : Fs) : Prop where
  result : r = (op.apply names).1
  isMap : fs'.IsMap ip i (op.apply names).2
  ref : ∀ ip, (fs'.inode ip).ref = (fs.inode ip).ref
  failed : r = -1 → fs'.view.content i = fs.view.content i
  others : ∀ name, cut name ≠ cut op.name → fs'.entryOf i name = fs.entryOf i name

theorem Stepped.of_failed (isMap : fs.IsMap ip i names)
    (changed : Changed fs ip i (fs.view.content i) fs') (quiet : fs'.Quiet)
    (same : op.apply names = (-1, names)) : Stepped fs ip i names op (-1) fs' where
  result := by rw [same]
  isMap := by
    rw [same]
    exact ⟨changed.dir, changed.content ▸ isMap.represents, quiet⟩
  ref := changed.ref
  failed _ := changed.content
  others name _ := by rw [entryOf, entryOf, changed.content]

theorem Stepped.of_written {k : Nat} {bytes : List Byte} (isMap : fs.IsMap ip i names)
    (inside : k ≤ (fs.view.content i).length / 16) (length : bytes.length = 16)
    (changed : Changed fs ip i (Volume.splice (fs.view.content i) (16 * k) bytes) fs')
    (quiet : fs'.Quiet) (result : (op.apply names).1 = 0)
    (after : Represents (SlotMap.put (slots (fs.view.content i)) k (slotOf (.ofBytes bytes)))
      (op.apply names).2)
    (old : ∀ key v, (slots (fs.view.content i))[k]? = some (some (key, v)) → key = cut op.name)
    (new : ∀ key v, slotOf (.ofBytes bytes) = some (key, v) → key = cut op.name) :
    Stepped fs ip i names op 0 fs' := by
  have table : slots (fs'.view.content i) =
      SlotMap.put (slots (fs.view.content i)) k (slotOf (.ofBytes bytes)) := by
    rw [changed.content, slots_splice isMap.dir.aligned inside length]
  have inside' : k ≤ (slots (fs.view.content i)).length := by rwa [length_slots]
  refine ⟨result.symm, ⟨changed.dir, by rwa [table], quiet⟩, changed.ref,
    fun failed => absurd failed (by decide), fun name differ => ?_⟩
  have find : SlotMap.find (slots (fs'.view.content i)) (cut name) =
      SlotMap.find (slots (fs.view.content i)) (cut name) := by
    rw [table]
    exact isMap.represents.find_put after inside' (fun v there => differ (old _ v there))
      fun v there => differ (new _ v there)
  rw [entryOf, entryOf, find]
  cases found : SlotMap.find (slots (fs.view.content i)) (cut name) with
  | none => simp only [Option.bind_none]
  | some j =>
    obtain ⟨v, there⟩ := isMap.represents.find_eq_some.mp found
    have other : j ≠ k := by
      rintro rfl
      exact differ (old _ v there)
    simp only [Option.bind_some, table, SlotMap.getElem?_put inside', if_neg other]

theorem IsMap.wp_run (isMap : fs.IsMap ip i names) (short : op.Short) :
    Wp (op.run ip) (fun r fs' => Stepped fs ip i names op r fs') (Exhausted fs i) fs := by
  have represents := isMap.represents
  have quiet := isMap.quiet
  cases op with
  | link name inum =>
    refine quiet.wp_transaction (isMap.dir.begun.wp_dirlink name.property Nat.one_pos quiet.room
      (fun none => .inl ⟨rfl, none⟩) (fun length used => .inr (.inl ⟨rfl, length, used⟩))
      (fun all => .inr (.inr ⟨rfl, all⟩)) (fun k fs' found changed => ⟨changed.outstanding, ?_⟩)
      fun k fs' absent inside unused changed => ⟨changed.outstanding, ?_⟩)
    · obtain ⟨v, -, value⟩ := represents.value_of_find found
      obtain ⟨changed, quiet'⟩ := changed.ended quiet
      refine .of_failed isMap changed quiet' ?_
      rw [DirOp.apply, cut, value]
      rfl
    · have absent' : names (cut name) = none := represents.find_eq_none.mp absent
      have slot := slotOf_link name short.1 short.2
      have effect : (DirOp.link name inum).apply names =
          (0, Function.update names (cut name) (some inum)) := by
        rw [DirOp.apply, absent']
        rfl
      obtain ⟨changed, quiet'⟩ := changed.ended quiet
      refine .of_written isMap inside (length_toBytes ..) changed quiet' (by rw [effect]) ?_ ?_ ?_
      · rw [effect, slot]
        exact represents.insert (by rwa [length_slots]) unused absent' inum
      · exact fun key v there => absurd there (unused _)
      · intro key v there
        rw [slot] at there
        cases there
        rfl
  | unlink name =>
    refine quiet.wp_transaction (isMap.dir.begun.wp_unlinkEntry name.property Nat.one_pos
      quiet.room (fun all => .inr (.inr ⟨rfl, all⟩)) (fun absent => ⟨rfl, ?_⟩)
      fun k j fs' found slot changed => ⟨changed.outstanding, ?_⟩)
    · have absent' : names (cut name) = none := represents.find_eq_none.mp absent
      have same : Changed fs.begun ip i (fs.view.content i) fs.begun :=
        ⟨isMap.dir.begun, rfl, fun _ => rfl, rfl, rfl⟩
      obtain ⟨changed, quiet'⟩ := same.ended quiet
      refine .of_failed isMap changed quiet' ?_
      rw [DirOp.apply, absent']
      rfl
    · have inside : k < (fs.view.content i).length / 16 := by
        rw [← length_slots]
        exact (List.getElem?_eq_some_iff.mp slot).1
      have value : names (cut name) = some j := (represents.value _ _).mpr ⟨k, slot⟩
      have effect : (DirOp.unlink name).apply names =
          (0, Function.update names (cut name) none) := by
        rw [DirOp.apply, value]
        rfl
      have empty : slotOf (.ofBytes (List.replicate 16 0)) = none := by decide
      obtain ⟨changed, quiet'⟩ := changed.ended quiet
      refine .of_written isMap (Nat.le_of_lt inside) rfl changed quiet' (by rw [effect]) ?_ ?_ ?_
      · rw [effect, empty]
        exact represents.erase slot
      · intro key v there
        cases Option.some.inj (Option.some.inj (there.symm.trans slot))
        rfl
      · intro key v there
        rw [empty] at there
        cases there

theorem IsMap.wp_runAll (ops : List DirOp) (isMap : fs.IsMap ip i names)
    (short : ∀ op ∈ ops, op.Short) :
    Wp (DirOp.runAll ip ops) (fun results fs' => results = (DirOp.applyAll names ops).1 ∧
      fs'.IsMap ip i (DirOp.applyAll names ops).2) (Stops ip i ops fs) fs := by
  induction ops generalizing fs names with
  | nil => exact ⟨rfl, isMap⟩
  | cons op rest ih =>
    obtain ⟨first, others⟩ := List.forall_mem_cons.mp short
    have one := isMap.wp_run first
    rw [DirOp.runAll, wp_bind]
    refine wp_of_forall (fun r fs₁ ran => ?_) fun stopped ran => .inl (one.error ran)
    have stepped := one.ok ran
    rw [wp_bind]
    refine (ih stepped.isMap others).mono (fun results fs₂ ⟨equal, after⟩ => ?_)
      fun stopped stops => .inr ⟨r, fs₁, ran, stops⟩
    rw [wp_pure]
    exact ⟨by rw [equal, stepped.result]; rfl, after⟩

theorem entryOf_eq {name : Filename} {k : Nat}
    (found : SlotMap.find (slots (fs.view.content i)) (cut name) = some k)
    (slot : (slots (fs.view.content i))[k]? = some (some (cut name, inum))) :
    fs.entryOf i name = some (16 * k, inum) := by
  rw [entryOf, found, Option.bind_some, slot]
  rfl

theorem IsMap.slot_of_entryOf {name : Filename} {off : Nat} (isMap : fs.IsMap ip i names)
    (found : fs.entryOf i name = some (off, inum)) :
    ∃ k, off = 16 * k ∧ (slots (fs.view.content i))[k]? = some (some (cut name, inum)) := by
  rw [entryOf] at found
  obtain ⟨k, place, value⟩ := Option.bind_eq_some_iff.mp found
  obtain ⟨v, slot⟩ := isMap.represents.find_eq_some.mp place
  rw [slot] at value
  cases value
  exact ⟨k, rfl, slot⟩

theorem Dir.wp_dirlookup_entry (dir : fs.Dir ip i) (name : Filename) :
    Wp (dirlookup ip name.val) (fun r fs' => r.map (fun found => (found.2.toNat,
      (fs'.inode found.1).inum)) = fs.entryOf i name) fs.CacheFull fs := by
  refine dir.wp_dirlookup name.property (fun absent => ?_) (fun all => ⟨rfl, all⟩)
    fun k inum ip' x found slot got => ?_
  · rw [entryOf, cut, absent]
    rfl
  · have inside : k < (fs.view.content i).length / 16 := by
      rw [← length_slots]
      exact (List.getElem?_eq_some_iff.mp slot).1
    have limit := dir.length_le
    have off : (BitVec.ofNat 32 (16 * k)).toNat = 16 * k := by
      rw [BitVec.toNat_ofNat]
      omega
    rw [entryOf_eq found slot, Option.map_some, off, put_inode, if_pos rfl, got.inum]

structure Behaves (fs : Fs) (ip : InodePtr) (i : Word) (names : Names) : Prop where
  lookup : ∀ name : Filename, Wp (dirlookup ip name.val) (fun r fs' => r.map (fun found =>
    (found.2.toNat, (fs'.inode found.1).inum)) = fs.entryOf i name) fs.CacheFull fs
  value : ∀ name, (fs.entryOf i name).map Prod.snd = names (cut name)
  place : ∀ name off inum, fs.entryOf i name = some (off, inum) →
    off % 16 = 0 ∧ off < (fs.view.content i).length ∧
      namecmp name.val (direntAt (fs.view.content i) (off / 16)).name = 0 ∧
      (direntAt (fs.view.content i) (off / 16)).inum ≠ 0 ∧
      (direntAt (fs.view.content i) (off / 16)).inum.setWidth 32 = inum
  unique : ∀ k k', k < (fs.view.content i).length / 16 → k' < (fs.view.content i).length / 16 →
    (direntAt (fs.view.content i) k).inum ≠ 0 → (direntAt (fs.view.content i) k').inum ≠ 0 →
    (direntAt (fs.view.content i) k).name = (direntAt (fs.view.content i) k').name → k = k'
  step : ∀ op : DirOp, op.Short → Wp (op.run ip) (fun r fs' => r = (op.apply names).1 ∧
    (r = -1 → fs'.view.content i = fs.view.content i) ∧
    ∀ name, cut name ≠ cut op.name → fs'.entryOf i name = fs.entryOf i name) (Exhausted fs i) fs

theorem IsMap.behaves (isMap : fs.IsMap ip i names) : Behaves fs ip i names where
  lookup := isMap.dir.wp_dirlookup_entry
  value name := by
    cases found : SlotMap.find (slots (fs.view.content i)) (cut name) with
    | none =>
      rw [isMap.represents.find_eq_none.mp found, entryOf, found]
      rfl
    | some k =>
      obtain ⟨v, slot, value⟩ := isMap.represents.value_of_find found
      rw [value, entryOf_eq found slot]
      rfl
  place name off inum found := by
    obtain ⟨k, rfl, slot⟩ := isMap.slot_of_entryOf found
    rw [getElem?_slots] at slot
    split at slot
    · rename_i inside
      rw [Option.some_inj, slotOf] at slot
      rw [Nat.mul_div_cancel_left k (by decide)]
      split at slot
      · cases slot
      · rename_i used
        rw [Option.some_inj, Prod.mk.injEq] at slot
        exact ⟨Nat.mul_mod_right 16 k, by omega,
          (namecmp_direntAt name.property _ k).mpr slot.1, used, slot.2⟩
    · cases slot
  unique k k' inside inside' used used' same := by
    have slot : ∀ k, k < (fs.view.content i).length / 16 →
        (direntAt (fs.view.content i) k).inum ≠ 0 → (slots (fs.view.content i))[k]? =
          some (some ((direntAt (fs.view.content i) k).name.takeWhile (· != 0),
            (direntAt (fs.view.content i) k).inum.setWidth 32)) := by
      intro k inside used
      rw [getElem?_slots, if_pos inside, slotOf, if_neg used]
    have first := slot k inside used
    rw [same] at first
    exact isMap.represents.unique first (slot k' inside' used')
  step op short := (isMap.wp_run short).imp fun _ _ stepped =>
    ⟨stepped.result, stepped.failed, stepped.others⟩

theorem IsMap.of_empty (wf : fs.Wf) (blocks : fs.Blocks) (held : fs.Held ip i)
    (type : (fs.inode ip).din.type = tDir) (empty : (fs.inode ip).din.size = 0)
    (quiet : fs.Quiet) : fs.IsMap ip i fun _ => none := by
  have size : (fs.view.dinode i).size.toNat = 0 := by
    rw [wf.view_dinode held.toCopies, empty]
    rfl
  have none : fs.view.content i = [] := by
    rw [Volume.content, size]
    rfl
  refine ⟨⟨wf, blocks, held, type, ⟨fun bn low => ?_, ?_⟩, ?_⟩, ?_, quiet⟩
  · omega
  · omega
  · rw [none]
    rfl
  · rw [none]
    exact SlotMap.represents_nil

/-- A directory that was empty is the map that the operations on it make: their results are those
of the map, and the directory behaves as the map. The run stops only at an operation that finds the
disk, the directory or the inode cache full. -/
theorem directory_is_map (wf : fs.Wf) (blocks : fs.Blocks) (held : fs.Held ip i)
    (type : (fs.inode ip).din.type = tDir) (empty : (fs.inode ip).din.size = 0)
    (quiet : fs.Quiet) (ops : List DirOp) (short : ∀ op ∈ ops, op.Short) :
    Wp (DirOp.runAll ip ops) (fun results fs' =>
      results = (DirOp.applyAll (fun _ => none) ops).1 ∧
      Behaves fs' ip i (DirOp.applyAll (fun _ => none) ops).2) (Stops ip i ops fs) fs :=
  ((IsMap.of_empty wf blocks held type empty quiet).wp_runAll ops short).imp
    fun _ _ ⟨results, isMap⟩ => ⟨results, isMap.behaves⟩

section Small

def smallSb : Superblock where
  size := 38
  nblocks := 3
  ninodes := 8
  nlog := 30
  logstart := 2
  inodestart := 32
  bmapstart := 34

def smallInode (type : Short) (size addr : Word) : Dinode where
  type := type
  major := 0
  minor := 0
  nlink := 1
  size := size
  addrs := fun k => if k = 0 then addr else 0

/-- Its inodes: the root directory, a file of the given size, and an empty directory. -/
def smallDinode (size : Word) (n : Nat) : Dinode :=
  if n = 1 then smallInode tDir 48 35
  else if n = 2 then smallInode tFile size 36
  else if n = 3 then smallInode tDir 0 0
  else .zero

/-- The entries of its root directory: itself, itself as the parent, and the file. -/
def smallRoot : List Byte :=
  Dirent.toBytes ⟨1, strncpy dirsiz dotName⟩ ++ Dirent.toBytes ⟨1, strncpy dirsiz dotDotName⟩ ++
    Dirent.toBytes ⟨2, strncpy dirsiz [0x66]⟩

def smallBitmap : Block := fun j => if j = 0 then 0xFFFFFFFF else if j = 1 then 0x1F else 0

def smallDisk (size : Word) (data : Block) : Disk := fun b =>
  if b = 1 then smallSb.toBlock
  else if b = 32 then fun j => (smallDinode size (j.val / 16)).word (Fin.ofNat 16 j.val)
  else if b = 34 then smallBitmap
  else if b = 35 then putBytes (fun _ => 0) 0 smallRoot
  else if b = 36 then data
  else fun _ => 0

def small (size : Word) (data : Block) : Fs where
  sb := smallSb
  disk := smallDisk size data
  logged := []
  outstanding := 0
  inode := fun ip =>
    if ip = 0 then ⟨rootDev, 1, 1, false, true, smallDinode size 1⟩
    else if ip = 1 then ⟨rootDev, 3, 1, false, true, smallDinode size 3⟩
    else ⟨0, 0, 0, false, false, .zero⟩
  typed := []

variable {size : Word} {data : Block}

theorem small_onDisk (i : Word) : (small size data).onDisk i = smallDinode size i.toNat := by
  by_cases known : i < 8
  · have low : i.toNat < 8 := BitVec.lt_def.mp known
    have block : iblock smallSb i = 32 := by
      apply BitVec.eq_of_toNat_eq
      rw [iblock, BitVec.toNat_add, BitVec.toNat_udiv]
      show (i.toNat / 8 + 32) % 2 ^ 32 = 32
      omega
    rw [onDisk]
    refine (Disk.volume_dinode known).trans ?_
    show Dinode.ofBlock (smallDisk size data (iblock smallSb i)) (iplace i) = _
    rw [block]
    have words : (fun k : Fin 16 => smallDisk size data 32
        (Fin.ofNat blockWords (16 * (iplace i).val + k.val))) =
          (smallDinode size i.toNat).word := by
      funext k
      have place : (iplace i).val = i.toNat := Nat.mod_eq_of_lt low
      have value : (Fin.ofNat blockWords (16 * (iplace i).val + k.val)).val =
          16 * i.toNat + k.val := by
        rw [place]
        exact Nat.mod_eq_of_lt (show _ < 128 by omega)
      show (smallDinode size ((Fin.ofNat blockWords (16 * (iplace i).val + k.val)).val / 16)).word
        (Fin.ofNat 16 (Fin.ofNat blockWords (16 * (iplace i).val + k.val)).val) = _
      rw [value]
      congr 1
      · congr 1
        omega
      · apply Fin.ext
        show (16 * i.toNat + k.val) % 16 = k.val
        omega
    rw [Dinode.ofBlock, words, Dinode.ofWords_word]
  · have high : 8 ≤ i.toNat := by
      have le := BitVec.not_lt.mp known
      exact BitVec.le_def.mp le
    rw [onDisk]
    refine (if_neg known).trans ?_
    rw [smallDinode, if_neg (by omega), if_neg (by omega), if_neg (by omega)]

theorem smallSb_dataStart : smallSb.dataStart = 35 := by decide

theorem smallSb_valid : smallSb.Valid := by constructor <;> decide

theorem small_ref {ip : InodePtr} (some : 0 < ((small size data).inode ip).ref) :
    ip = 0 ∨ ip = 1 := by
  by_contra neither
  obtain ⟨first, second⟩ := not_or.mp neither
  simp only [small, if_neg first, if_neg second] at some
  exact Nat.lt_irrefl 0 some

theorem small_wf (size : Word) (data : Block) : (small size data).Wf where
  valid := smallSb_valid
  super := rfl
  unique ip ip' some some' := by
    obtain rfl | rfl := small_ref some <;> obtain rfl | rfl := small_ref some'
    · exact fun _ => rfl
    · exact fun same => absurd (show (1 : Word) = 3 from same) (by decide)
    · exact fun same => absurd (show (3 : Word) = 1 from same) (by decide)
    · exact fun _ => rfl
  dev ip some := by
    obtain rfl | rfl := small_ref some <;> rfl
  known ip some _ := by
    obtain rfl | rfl := small_ref some
    · exact (show (1 : Word) < 8 by decide)
    · exact (show (3 : Word) < 8 by decide)

theorem small_view (i : Word) : (small size data).view.dinode i = smallDinode size i.toNat := by
  obtain ⟨ip, copies, seen⟩ | ⟨-, seen⟩ := (small_wf size data).view_cases i
  · rw [seen, ← copies.inum]
    obtain rfl | rfl := small_ref copies.ref <;> rfl
  · rw [seen, small_onDisk]

theorem small_addr (i : Word) (s : AddrSlot) : (small size data).view.addr i s =
    if s = .direct 0 then if i = 1 then 35 else if i = 2 then 36 else 0 else 0 := by
  have number : ∀ n : Nat, n < 2 ^ 32 → (i.toNat = n ↔ i = BitVec.ofNat 32 n) := fun n low => by
    rw [← BitVec.toNat_inj, BitVec.toNat_ofNat, Nat.mod_eq_of_lt low]
  have inode : ∀ k, (smallDinode size i.toNat).addrs k =
      if k = 0 then if i = 1 then 35 else if i = 2 then 36 else 0 else 0 := by
    intro k
    rw [smallDinode]
    simp only [number 1 (by decide), number 2 (by decide), number 3 (by decide)]
    show (if i = 1 then _ else if i = 2 then _ else _ : Dinode).addrs k = _
    by_cases first : i = 1
    · rw [if_pos first, if_pos first]
      rfl
    · rw [if_neg first, if_neg first]
      by_cases second : i = 2
      · rw [if_pos second, if_pos second]
        rfl
      · rw [if_neg second, if_neg second, ite_self]
        split
        · show (if k = 0 then 0 else 0 : Word) = 0
          rw [ite_self]
        · rfl
  cases s with
  | direct k =>
    rw [Volume.addr, small_view, inode]
    simp only [AddrSlot.direct.injEq]
  | indirect j =>
    have last : indirectIndex ≠ 0 := by decide
    rw [Volume.addr, small_view, inode, if_neg last, if_pos rfl, if_neg (by rintro ⟨⟩)]

variable {b : BlockNo}

theorem small_bit (inside : b.toNat < 38) : (small size data).bit b = decide (b.toNat < 37) := by
  have bits : ∀ n, n < 38 → bitSet smallBitmap (n % bpb) = decide (n < 37) := by decide +kernel
  have place : bblock smallSb b = 34 := by
    apply BitVec.eq_of_toNat_eq
    rw [(smallSb_valid.bblock_toNat inside).1]
    show b.toNat / 4096 + 34 = 34
    omega
  rw [← bits b.toNat inside]
  show bitSet (smallDisk size data (bblock smallSb b)) _ = _
  rw [place]
  rfl

theorem small_used : (small size data).Used b ↔ b = 35 ∨ b = 36 := by
  have value : (b = 35 ↔ b.toNat = 35) ∧ (b = 36 ↔ b.toNat = 36) := by
    rw [← BitVec.toNat_inj, ← BitVec.toNat_inj]
    exact ⟨Iff.rfl, Iff.rfl⟩
  rw [value.1, value.2]
  show smallSb.dataStart ≤ b.toNat ∧ b.toNat < 38 ∧ (small size data).bit b = true ↔ _
  rw [smallSb_dataStart]
  constructor
  · rintro ⟨start, inside, set⟩
    rw [small_bit inside, decide_eq_true_eq] at set
    omega
  · intro either
    refine ⟨by omega, by omega, ?_⟩
    rw [small_bit (by omega), decide_eq_true_eq]
    omega

theorem small_reference {i : Word} {s : AddrSlot} :
    (small size data).view.ref (i, s) = some b ↔
      s = .direct 0 ∧ (i = 1 ∧ b = 35 ∨ i = 2 ∧ b = 36) := by
  rw [Volume.ref_eq_some, small_addr, Volume.Live, small_view]
  constructor
  · rintro ⟨-, rfl, some⟩
    by_cases slot : s = .direct 0
    · rw [if_pos slot] at some ⊢
      refine ⟨slot, ?_⟩
      by_cases first : i = 1
      · exact .inl ⟨first, if_pos first⟩
      · rw [if_neg first] at some ⊢
        by_cases second : i = 2
        · exact .inr ⟨second, if_pos second⟩
        · exact absurd (if_neg second) some
    · exact absurd (if_neg slot) some
  · rintro ⟨rfl, ⟨rfl, rfl⟩ | ⟨rfl, rfl⟩⟩
    · exact ⟨fun none => absurd (show tDir = 0 from none) (by decide), rfl, by decide⟩
    · exact ⟨fun none => absurd (show tFile = 0 from none) (by decide), rfl, by decide⟩

theorem small_blocks (size : Word) (data : Block) : (small size data).Blocks where
  reserved b before := by
    have before' : b.toNat < smallSb.dataStart := before
    rw [smallSb_dataStart] at before'
    rw [small_bit (by omega), decide_eq_true_eq]
    omega
  exact := by
    constructor
    · rintro ⟨i, s⟩ ⟨i', s'⟩ b held held'
      obtain ⟨slot, place⟩ := small_reference.mp held
      obtain ⟨slot', place'⟩ := small_reference.mp held'
      rw [slot, slot']
      obtain ⟨rfl, rfl⟩ | ⟨rfl, rfl⟩ := place <;> obtain ⟨rfl, same⟩ | ⟨rfl, same⟩ := place'
      · rfl
      · exact absurd same (by decide)
      · exact absurd same (by decide)
      · rfl
    · intro b
      rw [small_used]
      constructor
      · rintro (rfl | rfl)
        · exact ⟨(1, .direct 0), small_reference.mpr ⟨rfl, .inl ⟨rfl, rfl⟩⟩⟩
        · exact ⟨(2, .direct 0), small_reference.mpr ⟨rfl, .inr ⟨rfl, rfl⟩⟩⟩
      · rintro ⟨⟨i, s⟩, held⟩
        exact (small_reference.mp held).2.imp And.right And.right

theorem small_held (size : Word) (data : Block) : (small size data).Held 1 3 :=
  ⟨⟨Nat.one_pos, rfl, rfl⟩, fun none => absurd (show tDir = 0 from none) (by decide)⟩

def smallName : Filename := ⟨[0x61], by decide⟩

def smallOps : List DirOp := [.link smallName 2, .link smallName 5, .unlink smallName]

-- The statements below run the model; a rule that unfolds would run it as well.
attribute [local irreducible] Wp

theorem small_quiet (size : Word) (data : Block) : (small size data).Quiet :=
  ⟨rfl, rfl, show (30 : Word).toInt = logSize by decide⟩

theorem smallOps_return : ((DirOp.runAll 1 smallOps).run (small 0 fun _ => 0)).toOption.map
    Prod.fst = some [0, -1, 0] := by
  decide +kernel

/-- In the empty directory a name is linked, linked again, and unlinked. -/
theorem directory_is_map_small : (∀ op ∈ smallOps, op.Short) ∧
    Wp (DirOp.runAll 1 smallOps) (fun results fs' =>
      results = (DirOp.applyAll (fun _ => none) smallOps).1 ∧
      Behaves fs' 1 3 (DirOp.applyAll (fun _ => none) smallOps).2)
      (Stops 1 3 smallOps (small 0 fun _ => 0)) (small 0 fun _ => 0) ∧
    ((DirOp.runAll 1 smallOps).run (small 0 fun _ => 0)).toOption.map Prod.fst =
      some [0, -1, 0] := by
  have short : ∀ op ∈ smallOps, op.Short := by
    simp only [smallOps, List.forall_mem_cons]
    exact ⟨⟨by decide, by decide⟩, ⟨by decide, by decide⟩, trivial, nofun⟩
  have behaves := directory_is_map (small_wf 0 fun _ => 0) (small_blocks 0 fun _ => 0)
    (small_held 0 fun _ => 0) rfl rfl (small_quiet 0 fun _ => 0) smallOps short
  exact ⟨short, behaves, smallOps_return⟩

/-- The small file system with references to other inodes in all other entries of the cache. -/
def crowded : Fs :=
  { small 0 fun _ => 0 with
    inode := fun ip =>
      if ip = 0 ∨ ip = 1 then (small 0 fun _ => 0).inode ip
      else ⟨rootDev, BitVec.ofNat 32 (100 + ip.val), 1, false, false, .zero⟩ }

theorem crowded_wf : crowded.Wf where
  valid := smallSb_valid
  super := rfl
  unique := by decide +kernel
  dev := by decide +kernel
  known := by decide +kernel

theorem crowded_view : crowded.view = (small 0 fun _ => 0).view := by
  have copies : crowded.copyOf = (small 0 fun _ => 0).copyOf := by
    funext i
    unfold copyOf
    congr 1
    funext ip
    by_cases first : ip = 0 ∨ ip = 1
    · simp only [crowded, if_pos first]
    · obtain ⟨zero, one⟩ := not_or.mp first
      simp only [crowded, if_neg first, small, if_neg zero, if_neg one]
      rfl
  have dinode : crowded.view.dinode = (small 0 fun _ => 0).view.dinode := by
    funext i
    simp only [view, copies]
    cases found : (small 0 fun _ => 0).copyOf i with
    | none => rfl
    | some ip =>
      obtain rfl | rfl := small_ref (copies_of_copyOf found).ref <;> rfl
  exact congrArg₂ Volume.mk dinode rfl

theorem crowded_blocks : crowded.Blocks where
  reserved := (small_blocks 0 fun _ => 0).reserved
  exact := by
    rw [crowded_view]
    exact (small_blocks 0 fun _ => 0).exact

/-- An inode number of more than 16 bits is linked with success, as the entry of inode 0, and the
name is not found. When the inode cache is full, looking up a name that was linked panics. -/
theorem directory_loses_inum : (DirOp.link smallName 0x10000).Linked ∧
    ((do
      let r ← (DirOp.link smallName 0x10000).run 1
      return (r, (← dirlookup 1 smallName.val).isNone) : FsM (Int × Bool)).run
        (small 0 fun _ => 0)).toOption.map Prod.fst = some (0, true) ∧
    (DirOp.link smallName 2).Short ∧ crowded.Wf ∧ crowded.Blocks ∧ crowded.Quiet ∧
    ((do
      let r ← (DirOp.link smallName 2).run 1
      return (r, (← dirlookup 1 smallName.val).isNone) : FsM (Int × Bool)).run crowded).map
        Prod.fst = .error (.panic "iget: no inodes") :=
  ⟨show (0x10000 : Word) ≠ 0 by decide, by decide +kernel, ⟨by decide, by decide⟩, crowded_wf,
    crowded_blocks, ⟨rfl, rfl, show (30 : Word).toInt = logSize by decide⟩, by decide +kernel⟩

end Small

end Fs

end Xv6
