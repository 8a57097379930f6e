import Mathlib.Data.List.TakeWhile
import Xv6.Fs.Walk

/-!
# Paths

A path is resolved element by element: its elements are the maximal non-empty pieces without a
slash, cut to `DIRSIZ` bytes, and each is looked up in the inode reached so far. `namei` returns
the inode at the end, and `nameiparent` the one before the last element, which has to be a
directory. The walk of `namex` over the inode cache does what this fold over the elements says.
-/

namespace Xv6

open Bytes (Byte)
open Program

def components (path : List Byte) : List (List Byte) :=
  ((path.splitOn slash).filter (· ≠ [])).map (List.take dirsiz)

theorem components_append (front back : List Byte) :
    components (front ++ slash :: back) = components front ++ components back := by
  rw [components, List.splitOn_append_cons_self, List.filter_append, List.map_append, components,
    components]

theorem components_dropWhile (path : List Byte) :
    components (path.dropWhile (· == slash)) = components path := by
  induction path with
  | nil => rfl
  | cons c rest ih =>
    by_cases here : (c == slash) = true
    · rw [List.dropWhile_cons, if_pos here, ih, LawfulBEq.eq_of_beq here]
      exact (components_append [] rest).symm
    · rw [List.dropWhile_cons, if_neg here]

theorem dropWhile_eq_nil_or_cons (test : Byte → Bool) (list : List Byte) :
    list.dropWhile test = [] ∨ ∃ c rest, test c = false ∧ list.dropWhile test = c :: rest := by
  cases shape : list.dropWhile test with
  | nil => exact .inl rfl
  | cons c rest =>
    have stops := List.head_dropWhile_not test (l := list) (by rw [shape]; nofun)
    simp only [shape, List.head_cons] at stops
    exact .inr ⟨c, rest, by simpa using stops, rfl⟩

theorem components_cons {c : Byte} (tail : List Byte) (other : (c == slash) = false) :
    components (c :: tail) = ((c :: tail).takeWhile (· != slash)).take dirsiz ::
      components ((c :: tail).dropWhile (· != slash)) := by
  have some : (c :: tail).takeWhile (· != slash) ≠ [] := by
    rw [List.takeWhile_cons, if_pos (by simpa using other)]
    nofun
  have free : slash ∉ (c :: tail).takeWhile (· != slash) := fun member =>
    absurd (List.mem_takeWhile_imp member) (by simp)
  have word : components ((c :: tail).takeWhile (· != slash)) =
      [((c :: tail).takeWhile (· != slash)).take dirsiz] := by
    rw [components, List.splitOn_eq_singleton free, List.filter_cons_of_pos (by simpa using some)]
    rfl
  conv_lhs => rw [← List.takeWhile_append_dropWhile (p := (· != slash)) (l := c :: tail)]
  obtain ends | ⟨c', rest, slashes, shape⟩ := dropWhile_eq_nil_or_cons (· != slash) (c :: tail)
  · rw [ends, List.append_nil, word]
    rfl
  · obtain rfl : c' = slash := by simpa using slashes
    rw [shape, components_append, word]
    exact congrArg _ (components_append [] rest).symm

theorem components_of_none {path : List Byte} (none : skipelem path = none) :
    components path = [] := by
  simp only [skipelem] at none
  split at none
  · rename_i empty
    rw [← components_dropWhile, List.isEmpty_iff.mp empty]
    rfl
  · cases none

theorem components_of_some {path name rest : List Byte}
    (found : skipelem path = some (name, rest)) :
    components path = name :: components rest ∧ rest.length < path.length ∧
      (rest.isEmpty = true ↔ components rest = []) := by
  simp only [skipelem] at found
  split at found
  · cases found
  · rename_i more
    cases found
    obtain ends | ⟨c, tail, other, shape⟩ := dropWhile_eq_nil_or_cons (· == slash) path
    · rw [ends] at more
      exact absurd rfl more
    · refine ⟨?_, ?_, ?_⟩
      · rw [← components_dropWhile path, shape, components_cons tail other, components_dropWhile]
      · have before := (List.dropWhile_suffix (· == slash) (l := path)).length_le
        have behind := (List.dropWhile_suffix (· == slash)
          (l := (c :: tail).dropWhile (· != slash))).length_le
        have first : (c :: tail).dropWhile (· != slash) = tail.dropWhile (· != slash) := by
          rw [List.dropWhile_cons, if_pos (by simpa using other)]
        have last := (List.dropWhile_suffix (· != slash) (l := tail)).length_le
        rw [shape, List.length_cons] at before
        rw [shape]
        rw [first] at behind ⊢
        omega
      · rw [List.isEmpty_iff]
        obtain ends | ⟨c', tail', other', shape'⟩ := dropWhile_eq_nil_or_cons (· == slash)
          ((path.dropWhile (· == slash)).dropWhile (· != slash))
        · rw [ends]
          exact iff_of_true rfl rfl
        · rw [shape', components_cons tail' other']
          exact iff_of_false nofun nofun

theorem skipelem_text {path name rest : List Byte} (text : 0 ∉ path)
    (found : skipelem path = some (name, rest)) :
    0 ∉ name ∧ 0 ∉ rest ∧ name.take dirsiz = name := by
  simp only [skipelem] at found
  split at found
  · cases found
  · cases found
    have sub := (List.dropWhile_suffix (· == slash) (l := path)).subset
    refine ⟨fun member => text (sub ?_), fun member => text (sub ?_), by rw [List.take_take]; rfl⟩
    · exact (List.takeWhile_prefix _).subset (List.mem_of_mem_take member)
    · exact (List.dropWhile_suffix _).subset ((List.dropWhile_suffix _).subset member)

namespace Fs

/-- The inode number that a name has in a directory; nothing in an inode of another type. -/
def lookup (fs : Fs) (i : Word) (name : List Byte) : Option Word :=
  if (fs.view.dinode i).type = tDir then
    (SlotMap.find (slots (fs.view.content i)) name).bind fun k =>
      (slots (fs.view.content i))[k]?.join.map Prod.snd
  else none

def resolve (fs : Fs) (start : Word) (elements : List (List Byte)) : Option Word :=
  elements.foldlM fs.lookup start

/-- The directory that the elements before the last lead to, and the last element. -/
def resolveParent (fs : Fs) (start : Word) (elements : List (List Byte)) :
    Option (Word × List Byte) := do
  let last ← elements.getLast?
  let dir ← fs.resolve start elements.dropLast
  if (fs.view.dinode dir).type = tDir then some (dir, last) else none

/-- The inode can be walked to: it is allocated, and has links or is in the cache already. -/
structure Reached (fs : Fs) (j : Word) : Prop where
  known : j < fs.sb.ninodes
  live : fs.view.Live j
  linked : (fs.view.dinode j).nlink ≠ 0 ∨ ∃ ip, 0 < (fs.inode ip).ref ∧ (fs.inode ip).inum = j

structure Tree (fs : Fs) : Prop where
  wf : fs.Wf
  blocks : fs.Blocks
  whole : ∀ i, (fs.view.dinode i).type = tDir → fs.view.HoleFree i
  aligned : ∀ i, (fs.view.dinode i).type = tDir → (fs.view.content i).length % 16 = 0
  entries : ∀ i, (fs.view.dinode i).type = tDir → ∀ (k : Nat) name j,
    (slots (fs.view.content i))[k]? = some (some (name, j)) → fs.Reached j
  root : fs.Reached rootino
  idle : ∀ ip, (fs.inode ip).busy = true → 0 < (fs.inode ip).ref

/-- The ways in which a walk does not return: another process has an inode locked in which an
element is to be looked up, or there are not two free entries in the cache. -/
def Blocked (fs : Fs) (start : Word) (elements : List (List Byte)) (fault : Fault) : Prop :=
  fault = .disabled ∧ (∃ front back ip, elements = front ++ back ∧ back ≠ [] ∧
      fs.resolve start front = some (fs.inode ip).inum ∧ 0 < (fs.inode ip).ref ∧
      (fs.inode ip).busy = true) ∨
    fault = .panic "iget: no inodes" ∧
      ∀ ip ip', (fs.inode ip).ref = 0 → (fs.inode ip').ref = 0 → ip = ip'

variable {before fs : Fs} {i : Word} {name : List Byte} {elements : List (List Byte)}

theorem resolveParent_cons (more : elements ≠ []) : fs.resolveParent i (name :: elements) =
    (fs.lookup i name).bind fun j => fs.resolveParent j elements := by
  obtain ⟨e, es, rfl⟩ := List.exists_cons_of_ne_nil more
  simp only [resolveParent, resolve, List.getLast?_cons_cons, List.dropLast_cons_cons,
    List.foldlM_cons]
  cases fs.lookup i name <;> cases (e :: es).getLast? <;> rfl

theorem Blocked.cons {j : Word} {fault : Fault} (found : fs.lookup i name = some j)
    (blocked : fs.Blocked j elements fault) : fs.Blocked i (name :: elements) fault := by
  refine blocked.imp_left fun ⟨waits, front, back, ip, split, more, reached, locked⟩ => ?_
  refine ⟨waits, name :: front, back, ip, by rw [split, List.cons_append], more, ?_, locked⟩
  rw [resolve, List.foldlM_cons, found]
  exact reached

def answer (fs : Fs) (parent : Bool) (start : Word) (elements : List (List Byte)) :
    Option (Word × List Byte) :=
  if parent then fs.resolveParent start elements else (fs.resolve start elements).map (·, [])

theorem answer_of_ne {parent : Bool} (other : (fs.view.dinode i).type ≠ tDir) :
    fs.answer parent i (name :: elements) = none := by
  have none : fs.lookup i name = none := if_neg other
  cases parent with
  | false =>
    show ((fs.lookup i name).bind fun j => fs.resolve j elements).map _ = _
    rw [none]
    rfl
  | true =>
    show fs.resolveParent i (name :: elements) = _
    by_cases more : elements = []
    · rw [more]
      exact if_neg other
    · rw [resolveParent_cons more, none]
      rfl

theorem answer_cons {parent : Bool} (more : ¬ (parent = true ∧ elements = [])) :
    fs.answer parent i (name :: elements) =
      (fs.lookup i name).bind fun j => fs.answer parent j elements := by
  cases parent with
  | false =>
    show ((fs.lookup i name).bind fun j => fs.resolve j elements).map _ = _
    cases fs.lookup i name <;> rfl
  | true => exact resolveParent_cons fun none => more ⟨rfl, none⟩

theorem Reached.last {locked : Option InodePtr} {owned : List InodePtr} {ip : InodePtr}
    (reached : before.Reached i) (walk : Walk before fs owned locked) (member : ip ∈ owned)
    (inum : (fs.inode ip).inum = i) (new : (before.inode ip).ref = 0) :
    (before.view.dinode (fs.inode ip).inum).nlink ≠ 0 := by
  rw [inum]
  refine reached.linked.resolve_right fun ⟨ip', there, inum'⟩ => ?_
  obtain ⟨ref, named, -, -⟩ := walk.tracks ip'
  have same := walk.wf.unique ip ip' (walk.ref_pos member) (by omega)
    (by rw [inum, (named there).2, inum'])
  rw [same] at new
  omega

end Fs

namespace Kernel

open Fs (Walk Blocked)

variable {P : Type} {k : Kernel P} {before : Fs} {ip : InodePtr} {owned : List InodePtr} {i : Word}
  {fault : Fault → Prop} {post : Unit → Kernel P → Prop}

theorem wp_iput_walk (walk : Walk before k.fs (ip :: owned) none) (reached : before.Reached i)
    (inum : (k.fs.inode ip).inum = i) (done : ∀ fs, Walk before fs owned none →
      (∀ ip', (fs.inode ip').inum = (k.fs.inode ip').inum) → post () { k with fs := fs }) :
    Wp (iput ip : FsCall P Unit).run post fault k := by
  rw [iput]
  refine wp_onFs_next (walk.wp_iputTest (reached.last walk List.mem_cons_self inum) ?_)
  exact wp_onFs.mpr (walk.wp_iputDrop done)

theorem wp_iunlockput_walk (walk : Walk before k.fs (ip :: owned) (some ip))
    (reached : before.Reached i) (inum : (k.fs.inode ip).inum = i)
    (done : ∀ fs, Walk before fs owned none →
      (∀ ip', (fs.inode ip').inum = (k.fs.inode ip').inum) → post () { k with fs := fs }) :
    Wp (iunlockput ip : FsCall P Unit).run post fault k := by
  rw [iunlockput]
  refine wp_onFs_next (walk.wp_iunlock fun fs walk' same => ?_)
  exact wp_iput_walk walk' reached ((same ip).trans inum) fun fs' walk'' same' =>
    done fs' walk'' fun ip' => (same' ip').trans (same ip')

def found (k : Kernel P) (r : Option (InodePtr × List Byte)) : Option (Word × List Byte) :=
  r.map fun pair => ((k.fs.inode pair.1).inum, pair.2)

theorem wp_namexLoop {parent : Bool} (tree : before.Tree) (fuel : Nat) {path : List Byte}
    (walk : Walk before k.fs [ip] none) (inum : (k.fs.inode ip).inum = i)
    (reached : before.Reached i) (text : 0 ∉ path) (enough : path.length < fuel) :
    Wp (namexLoop parent fuel ip path : FsCall P _).run
      (fun r k' => k'.found r = before.answer parent i (components path))
      (before.Blocked i (components path)) k := by
  induction fuel generalizing k ip i path with
  | zero => exact absurd enough (Nat.not_lt_zero _)
  | succ fuel ih =>
    rw [namexLoop]
    cases shape : skipelem path with
    | none =>
      rw [components_of_none shape]
      cases parent with
      | true =>
        show Wp (iput ip >>= fun _ => pure none : FsCall P _).run _ _ k
        rw [Steps.wp_run_bind]
        exact wp_iput_walk walk reached inum fun fs _ _ => rfl
      | false => exact congrArg (fun j => some (j, [])) inum
    | some found =>
      obtain ⟨name, rest⟩ := found
      obtain ⟨elements, shorter, last⟩ := components_of_some shape
      obtain ⟨nameText, restText, cut⟩ := skipelem_text text shape
      rw [elements]
      refine wp_onFs_next (walk.wp_ilock List.mem_cons_self inum reached.known reached.live
        (fun busy => .inl ⟨rfl, [], _, ip, rfl, List.cons_ne_nil _ _, ?_, tree.idle ip busy, busy⟩)
        fun fs₁ walk₁ held => ?_)
      · rw [← ((walk.tracks ip).named (tree.idle ip busy)).2, inum]
        rfl
      have inum₁ := held.inum
      have type : (fs₁.inode ip).din.type = (before.view.dinode i).type := by
        rw [← walk₁.wf.view_dinode held.toCopies, walk₁.view]
      -- each way out of the loop unlocks the inode and drops it
      have leave : ∀ {fs}, Walk before fs [ip] (some ip) → (fs.inode ip).inum = i →
          before.answer parent i (name :: components rest) = none →
          Wp (iunlockput ip >>= fun _ => pure none : FsCall P _).run
            (fun r k' => k'.found r = before.answer parent i (name :: components rest))
            (before.Blocked i (name :: components rest)) { k with fs := fs } := by
        intro fs walk inum none
        rw [Steps.wp_run_bind, none]
        exact wp_iunlockput_walk walk reached inum fun _ _ _ => rfl
      refine wp_onFs_next (Fs.wp_getInode.mpr ?_)
      split
      · rename_i other
        exact leave walk₁ inum₁ (Fs.answer_of_ne (type ▸ other))
      · rename_i isDir
        rw [type, not_not] at isDir
        split
        · rename_i ends
          obtain ⟨rfl, empty⟩ := (Bool.and_eq_true _ _).mp ends
          refine wp_onFs_next (walk₁.wp_iunlock fun fs₂ walk₂ same => ?_)
          show some ((fs₂.inode ip).inum, name) = _
          rw [last.mp empty, same, inum₁]
          exact (if_pos isDir).symm
        · rename_i goes
          have cons : before.answer parent i (name :: components rest) =
              (before.lookup i name).bind fun j => before.answer parent j (components rest) :=
            Fs.answer_cons fun ⟨isParent, ends⟩ => goes (by rw [isParent, last.mpr ends]; rfl)
          have dir := walk₁.dir held tree.blocks isDir (tree.whole i isDir) (tree.aligned i isDir)
          refine wp_onFs_next (walk₁.wp_dirlookup dir nameText ?_ ?_ ?_)
          · intro full
            have mine : ∀ ip', (before.inode ip').ref = 0 → ip' = ip := fun ip' free => by
              have ref := (walk₁.tracks ip').ref
              have some := full ip'
              exact List.mem_singleton.mp (List.count_pos_iff.mp (by omega))
            exact .inr ⟨rfl, fun _ _ free free' => (mine _ free).trans (mine _ free').symm⟩
          · intro absent
            rw [cut] at absent
            refine leave walk₁ inum₁ ?_
            rw [cons, Fs.lookup, if_pos isDir, absent]
            rfl
          · intro slot j next off fs₂ place entry walk₂ inum₂ same
            rw [cut] at place entry
            have value : before.lookup i name = some j := by
              rw [Fs.lookup, if_pos isDir, place]
              show (_[slot]?).join.map Prod.snd = _
              rw [entry]
              rfl
            rw [cons, value]
            show Wp (iunlockput ip >>= fun _ => namexLoop parent fuel next rest :
              FsCall P _).run _ _ _
            rw [Steps.wp_run_bind]
            refine wp_iunlockput_walk (walk₂.perm (.swap ..)) reached (same.trans inum₁)
              fun fs₃ walk₃ kept => ?_
            exact (ih walk₃ ((kept next).trans inum₂) (tree.entries i isDir slot name j entry)
              restText (by omega)).mono (fun _ _ result => result) fun _ blocked =>
                blocked.cons value

structure Starts (k : Kernel P) (p : P) (cwd : InodePtr) : Prop where
  here : k.cwd p = some cwd
  ref : 0 < (k.fs.inode cwd).ref
  known : (k.fs.inode cwd).inum < k.fs.sb.ninodes
  live : k.fs.view.Live (k.fs.inode cwd).inum

def start (k : Kernel P) (cwd : InodePtr) (path : List Byte) : Word :=
  if path.head? = some slash then rootino else (k.fs.inode cwd).inum

theorem wp_namex {p : P} {cwd : InodePtr} {path : List Byte} (parent : Bool) (tree : k.fs.Tree)
    (starts : k.Starts p cwd) (text : 0 ∉ path) :
    Wp (namex p path parent).run (fun r k' => k'.found r =
      k.fs.answer parent (k.start cwd path) (components path))
      (k.fs.Blocked (k.start cwd path) (components path)) k := by
  have walk := Walk.refl tree.wf
  rw [namex]
  split
  · rename_i absolute
    rw [start, if_pos absolute]
    refine wp_onFs_next (walk.wp_iget (fun full => ?_) fun ip fs₁ walk₁ inum => ?_)
    · exact .inr ⟨rfl, fun ip _ free => absurd (full ip) (by rw [free]; exact Nat.lt_irrefl 0)⟩
    · exact wp_namexLoop tree _ walk₁ inum tree.root text (Nat.lt_succ_self _)
  · rename_i relative
    rw [start, if_neg relative, Steps.wp_run_bind]
    show Wp (Steps.atomic (getCwd p)).run _ _ k
    rw [Steps.wp_run_atomic, getCwd, wp_bind, wp_get, starts.here]
    refine wp_onFs_next (walk.wp_idup starts.ref fun fs₁ walk₁ inum => ?_)
    exact wp_namexLoop tree _ walk₁ inum
      ⟨starts.known, starts.live, .inr ⟨cwd, starts.ref, rfl⟩⟩ text (Nat.lt_succ_self _)

/-- Resolving a path looks up its elements in order. `namei` returns the inode that they lead to,
and nothing when an element is not in a directory or not found. `nameiparent` returns the directory
that the elements before the last lead to, with the last one, and nothing when there is none or the
inode is not a directory. A call waits for an inode that it has to look in, and panics when there
are not two free entries in the inode cache. -/
theorem path_resolution (k : Kernel P) (p : P) (cwd : InodePtr) (tree : k.fs.Tree)
    (starts : k.Starts p cwd) (path : List Byte) (text : 0 ∉ path) :
    Wp (namei p path).run (fun r k' => r.map (fun ip => (k'.fs.inode ip).inum) =
      k.fs.resolve (k.start cwd path) (components path))
      (k.fs.Blocked (k.start cwd path) (components path)) k ∧
    Wp (nameiparent p path).run (fun r k' => k'.found r =
      k.fs.resolveParent (k.start cwd path) (components path))
      (k.fs.Blocked (k.start cwd path) (components path)) k := by
  refine ⟨?_, wp_namex true tree starts text⟩
  rw [namei, Steps.wp_run_bind]
  refine (wp_namex false tree starts text).imp fun r k' found => ?_
  have first : (r.map Prod.fst).map (fun ip => (k'.fs.inode ip).inum) =
      (k'.found r).map Prod.fst := by
    cases r <;> rfl
  show (r.map Prod.fst).map _ = _
  rw [first, found, Fs.answer, if_neg Bool.false_ne_true, Option.map_map]
  exact Option.map_id'

section Small

open Fs (small)

def inRoot (fs : Fs) : Kernel Unit where
  fs := fs
  cwd _ := some 0

theorem small_slots : slots ((small 0 fun _ => 0).view.content 1) =
    [some ([0x2E], 1), some ([0x2E, 0x2E], 1), some ([0x66], 2)] := by
  decide +kernel

theorem small_dir {i : Word} (isDir : ((small 0 fun _ => 0).view.dinode i).type = tDir) :
    i = 1 ∨ i = 3 := by
  rw [Fs.small_view, Fs.smallDinode] at isDir
  split at isDir
  · rename_i first
    exact .inl (BitVec.eq_of_toNat_eq first)
  · split at isDir
    · exact absurd (show tFile = tDir from isDir) (by decide)
    · split at isDir
      · rename_i third
        exact .inr (BitVec.eq_of_toNat_eq third)
      · exact absurd (show 0 = tDir from isDir) (by decide)

theorem tree_of_small {fs : Fs} (wf : fs.Wf) (blocks : fs.Blocks) (sb : fs.sb = Fs.smallSb)
    (view : fs.view = (small 0 fun _ => 0).view)
    (idle : ∀ ip, (fs.inode ip).busy = true → 0 < (fs.inode ip).ref) : fs.Tree := by
  have reached : ∀ j, j = 1 ∨ j = 2 → fs.Reached j := by
    intro j either
    refine ⟨?_, ?_, .inl ?_⟩
    · rw [sb]
      rcases either with rfl | rfl <;> decide
    · rw [view]
      rcases either with rfl | rfl <;> decide +kernel
    · rw [view]
      rcases either with rfl | rfl <;> decide +kernel
  refine ⟨wf, blocks, ?_, ?_, ?_, reached 1 (.inl rfl), idle⟩ <;> rw [view] <;> intro i isDir
  · rcases small_dir isDir with rfl | rfl
    · refine ⟨fun bn inside => ?_, by decide +kernel⟩
      have zero : bn = 0 := by
        rw [Fs.small_view] at inside
        have inside : bn * 512 < 48 := inside
        omega
      rw [zero, Fs.small_addr]
      decide
    · refine ⟨fun bn inside => ?_, by decide +kernel⟩
      rw [Fs.small_view] at inside
      exact absurd inside (Nat.not_lt_zero _)
  · rcases small_dir isDir with rfl | rfl <;> decide +kernel
  · intro k name j entry
    rcases small_dir isDir with rfl | rfl
    · rw [small_slots] at entry
      have member := List.mem_of_getElem? entry
      simp only [List.mem_cons, Option.some.injEq, Prod.mk.injEq, List.not_mem_nil, or_false]
        at member
      refine reached j ?_
      rcases member with ⟨-, rfl⟩ | ⟨-, rfl⟩ | ⟨-, rfl⟩
      exacts [.inl rfl, .inl rfl, .inr rfl]
    · have none : slots ((small 0 fun _ => 0).view.content 3) = [] := by decide +kernel
      rw [none] at entry
      cases entry

theorem small_tree : (small 0 fun _ => 0).Tree :=
  tree_of_small (Fs.small_wf 0 fun _ => 0) (Fs.small_blocks 0 fun _ => 0) rfl rfl
    (by decide +kernel)

-- The statement below runs the model; a rule that unfolds would run it as well.
attribute [local irreducible] Wp

/-- The path `//f/` leads to the file, and its parent is the root directory. -/
theorem path_resolution_small :
    components [slash, slash, 0x66, slash] = [[0x66]] ∧
    (small 0 fun _ => 0).resolve 1 [[0x66]] = some 2 ∧
    (small 0 fun _ => 0).resolveParent 1 [[0x66]] = some (1, [0x66]) ∧
    Wp (namei () [slash, slash, 0x66, slash]).run
      (fun r k' => r.map (fun ip => (k'.fs.inode ip).inum) = some 2)
      ((small 0 fun _ => 0).Blocked 1 [[0x66]]) (inRoot (small 0 fun _ => 0)) := by
  have one : components [slash, slash, 0x66, slash] = [[0x66]] := by decide +kernel
  have file : (small 0 fun _ => 0).resolve 1 [[0x66]] = some 2 := by decide +kernel
  have parent : (small 0 fun _ => 0).resolveParent 1 [[0x66]] = some (1, [0x66]) := by
    decide +kernel
  have starts : (inRoot (small 0 fun _ => 0)).Starts () 0 :=
    ⟨rfl, Nat.one_pos, by decide, by decide +kernel⟩
  have resolved := (path_resolution (inRoot (small 0 fun _ => 0)) () 0 small_tree starts
    [slash, slash, 0x66, slash] (by decide)).1
  rw [one] at resolved
  exact ⟨one, file, parent, file ▸ resolved⟩

/-- With all entries of the inode cache in use the path `/f`, which leads to the file, cannot be
resolved: `iget` panics. -/
theorem path_resolution_stops :
    Fs.crowded.Tree ∧ (inRoot Fs.crowded).Starts () 0 ∧
    components [slash, 0x66] = [[0x66]] ∧ Fs.crowded.resolve 1 [[0x66]] = some 2 ∧
    ((namei () [slash, 0x66]).run (inRoot Fs.crowded)).map Prod.fst =
      .error (.panic "iget: no inodes") := by
  refine ⟨tree_of_small Fs.crowded_wf Fs.crowded_blocks rfl Fs.crowded_view (by decide +kernel),
    ⟨rfl, Nat.one_pos, by decide, by decide +kernel⟩, by decide +kernel, by decide +kernel, ?_⟩
  decide +kernel

end Small

end Kernel

end Xv6
