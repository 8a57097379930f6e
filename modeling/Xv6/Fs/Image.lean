import Xv6.Fs.Append

/-!
# The image

`main` of `mkfs` run on input files that fit: every file has its contents in an inode of its own,
the root directory has an entry for each of them, and the blocks in use are those that the files
need. Rounding up the size of the root directory is right unless its entries fill their blocks:
then the size goes one block too far, and the directory has a block that is not there.
-/

namespace Xv6.Mkfs

open List (append_nil append_assoc length_append flatten_cons foldlM_cons length_singleton
  length_nil range)
open BitVec (ofNat eq_of_toNat_eq toNat_add)
open Function (update update_apply update_eq_self update_idem update_of_ne update_self)
open Bytes (Byte putBytes)
open Assignment (Exact)

variable {s s' : Image} {inum : Word} {files : Word → List Byte} {v : Volume}

theorem length_dirent (inum : Word) (name : List Byte) : (dirent inum name).length = 16 := by
  simp only [dirent, Dirent.toBytes, List.length_cons, length_strncpy]
  rfl

theorem Grown.refl (built : Built s files) : Grown s inum files [] s where
  built := by
    rw [append_nil, update_eq_self]
    exact built
  dinode _ := ⟨_, _, rfl⟩
  free := rfl
  freeinode := rfl
  front _ _ := rfl

theorem Grown.trans {s'' : Image} {p p' : List Byte} (one : Grown s inum files p s')
    (two : Grown s' inum (update files inum (files inum ++ p)) p' s'') :
    Grown s inum files (p ++ p') s'' := by
  have mid : update files inum (files inum ++ p) inum = files inum ++ p :=
    update_self ..
  constructor
  case built =>
    have built := two.built
    rw [mid, update_idem, append_assoc] at built
    exact built
  case dinode =>
    intro i
    obtain ⟨size, addrs, same⟩ := one.dinode i
    obtain ⟨size', addrs', same'⟩ := two.dinode i
    exact ⟨size', addrs', by rw [same', same]⟩
  case free =>
    have before := one.free
    have after := two.free
    rw [mid, length_append] at after
    rw [length_append, ← Nat.add_assoc (files inum).length]
    omega
  case freeinode => rw [two.freeinode, one.freeinode]
  case front => exact fun b before => (two.front b before).trans (one.front b before)

theorem appendReads_spec (chunks : List (List Byte)) : ∀ {s : Image} {files : Word → List Byte},
    Built s files → (s.disk.volume sb).Live inum →
    (files inum).length + chunks.flatten.length ≤ maxfile * bsize →
    s.freeblock.toNat + need ((files inum).length + chunks.flatten.length) ≤
      fsSize + need (files inum).length →
    ∃ s', chunks.foldlM (fun s chunk => iappend s inum chunk) s = .ok s' ∧
      Grown s inum files chunks.flatten s' := by
  induction chunks with
  | nil =>
    intro s files built live fits room
    exact ⟨s, rfl, Grown.refl built⟩
  | cons chunk rest ih =>
    intro s files built live fits room
    rw [flatten_cons, length_append] at fits room
    have less : need ((files inum).length + chunk.length) ≤
        need ((files inum).length + (chunk.length + rest.flatten.length)) := need_mono (by omega)
    obtain ⟨s₁, first, one⟩ := iappend_spec built live (p := chunk) (by omega) (by omega)
    have length : (update files inum (files inum ++ chunk) inum).length =
        (files inum).length + chunk.length := by
      rw [update_self, length_append]
    have free := one.free
    have others := ih one.built (one.live.mpr live)
    rw [length, Nat.add_assoc] at others
    obtain ⟨s₂, second, two⟩ := others fits (by omega)
    refine ⟨s₂, ?_, ?_⟩
    · rw [foldlM_cons, first]
      exact second
    · rw [flatten_cons]
      exact one.trans two

def entries (files : List InputFile) : List (List Byte) :=
  files.mapIdx fun k file => dirent (BitVec.ofNat 32 (k + 2)) file.entryName

def rootBytes (files : List InputFile) : List Byte :=
  dirent rootino [0x2e] ++ dirent rootino [0x2e, 0x2e] ++ (entries files).flatten

def contentsOf (files : List InputFile) (i : Word) : List Byte :=
  if i = rootino then rootBytes files
  else if i.toNat < 2 then []
  else ((files[i.toNat - 2]?).map InputFile.content).getD []

def total (files : List InputFile) : Nat :=
  need (16 * (files.length + 2)) + (files.map fun file => need file.content.length).sum

theorem length_rootBytes (files : List InputFile) :
    (rootBytes files).length = 16 * (files.length + 2) := by
  have each : ∀ e ∈ entries files, e.length = 16 := by
    intro e member
    obtain ⟨k, inside, rfl⟩ := List.mem_mapIdx.mp member
    exact length_dirent _ _
  have sum : (entries files).flatten.length = 16 * files.length := by
    have lengths : (entries files).map List.length = List.replicate files.length 16 := by
      rw [List.eq_replicate_iff]
      refine ⟨by rw [List.length_map, entries, List.length_mapIdx], ?_⟩
      intro n member
      obtain ⟨e, inside, rfl⟩ := List.mem_map.mp member
      exact each e inside
    rw [List.length_flatten, lengths, List.sum_replicate_nat, Nat.mul_comm]
  rw [rootBytes, length_append, length_append, length_dirent, length_dirent, sum]
  omega

theorem rootBytes_append (done : List InputFile) (file : InputFile) :
    rootBytes (done ++ [file]) =
      rootBytes done ++ dirent (ofNat 32 (done.length + 2)) file.entryName := by
  simp only [rootBytes, entries, List.mapIdx_append, List.mapIdx_cons, List.mapIdx_nil,
    List.flatten_append, flatten_cons, List.flatten_nil, append_nil, Nat.zero_add,
    append_assoc]

theorem total_append (done : List InputFile) (file : InputFile) :
    total (done ++ [file]) + need (16 * (done.length + 2)) =
      total done + need (16 * (done.length + 2) + 16) + need file.content.length := by
  simp only [total, length_append, length_singleton, List.map_append, List.map_cons,
    List.map_nil, List.sum_append, List.sum_cons, List.sum_nil]
  rw [show 16 * (done.length + 1 + 2) = 16 * (done.length + 2) + 16 by omega]
  omega

theorem total_le_append (done rest : List InputFile) : total done ≤ total (done ++ rest) := by
  have root : need (16 * (done.length + 2)) ≤ need (16 * ((done ++ rest).length + 2)) :=
    need_mono (by rw [length_append]; omega)
  rw [total, total, List.map_append, List.sum_append]
  omega

theorem contentsOf_append (done : List InputFile) (file : InputFile)
    (few : done.length + 2 < 2 ^ 32) :
    contentsOf (done ++ [file]) = update (update (contentsOf done) rootino
      (rootBytes (done ++ [file]))) (ofNat 32 (done.length + 2)) file.content := by
  have number : (ofNat 32 (done.length + 2)).toNat = done.length + 2 := Nat.mod_eq_of_lt few
  funext i
  by_cases new : i = ofNat 32 (done.length + 2)
  · have value : i.toNat = done.length + 2 := by rw [new, number]
    have other : i ≠ rootino := by
      rintro rfl
      have one : rootino.toNat = 1 := rfl
      omega
    rw [new, update_self, ← new, contentsOf, if_neg other, if_neg (by omega), value,
      show done.length + 2 - 2 = done.length by omega, List.getElem?_append_right (Nat.le_refl _),
      Nat.sub_self]
    rfl
  · rw [update_of_ne new, update_apply]
    unfold contentsOf
    by_cases root : i = rootino
    · rw [if_pos root, if_pos root]
    · rw [if_neg root, if_neg root, if_neg root]
      by_cases small : i.toNat < 2
      · rw [if_pos small, if_pos small]
      · have differ : i.toNat ≠ done.length + 2 := fun same =>
          new (eq_of_toNat_eq (same.trans number.symm))
        rw [if_neg small, if_neg small]
        by_cases old : i.toNat - 2 < done.length
        · rw [List.getElem?_append_left old]
        · have past : (done ++ [file]).length ≤ i.toNat - 2 := by
            rw [length_append, length_singleton]
            omega
          rw [List.getElem?_eq_none past, List.getElem?_eq_none (by omega)]

structure Fits (files : List InputFile) : Prop where
  inodes : files.length + 1 < ninodes
  sizes : ∀ file ∈ files, file.content.length ≤ maxfile * bsize
  blocks : nmeta + total files ≤ fsSize
  names : ∀ file ∈ files, 0x2f ∉ file.name

structure Laid (s : Image) (files : List InputFile) : Prop
    extends Building (s.disk.volume sb) s.freeblock.toNat (contentsOf files) where
  live : ∀ i, (s.disk.volume sb).Live i ↔ 1 ≤ i.toNat ∧ i.toNat < files.length + 2
  free : s.freeblock.toNat = nmeta + total files
  root : ((s.disk.volume sb).dinode rootino).type = tDir
  file : ∀ {i}, i ≠ rootino → (s.disk.volume sb).Live i →
    ((s.disk.volume sb).dinode i).type = tFile
  front : SameFront format s

structure Progress (s : Image) (done : List InputFile) : Prop extends Laid s done where
  size : ∀ {i}, (s.disk.volume sb).Live i →
    ((s.disk.volume sb).dinode i).size.toNat = (contentsOf done i).length
  freeinode : s.freeinode.toNat = done.length + 2

theorem format_disk {b : Word} (other : b ≠ 1) : format.disk b = fun _ => 0 := by
  show update (fun _ _ => 0 : Disk) 1 sb.toBlock b = _
  exact update_of_ne other _ _

theorem format_dinode (i : Word) : (format.disk.volume sb).dinode i = Dinode.zero := by
  by_cases known : i < sb.ninodes
  · have place := (sb_valid.iblock_toNat known).1
    have other : iblock sb i ≠ 1 := by
      intro same
      have one : (1 : Word).toNat = 1 := rfl
      have start := sb_valid.inodes
      rw [same] at place
      omega
    rw [Disk.volume_dinode known, Disk.dinode, format_disk other]
    simp [Dinode.ofBlock, Dinode.ofWords, Dinode.zero]
  · exact if_neg known

theorem built_format : Built format fun _ => [] := by
  have gone : ∀ {i}, ¬ (format.disk.volume sb).Live i := by
    intro i live
    rw [Volume.Live, format_dinode] at live
    exact live rfl
  have value : format.freeblock.toNat = nmeta := by decide
  constructor
  case toBuilding =>
    refine ⟨⟨⟨?_, ?_⟩, ?_, ?_⟩, ?_, ?_⟩
    · intro k k' b held
      exact absurd (Volume.ref_eq_some.mp held).1 gone
    · intro b
      constructor
      · rintro ⟨low, high⟩
        omega
      · rintro ⟨k, held⟩
        exact absurd (Volume.ref_eq_some.mp held).1 gone
    · intro b past j
      have other : b ≠ 1 := by
        rintro rfl
        rw [value] at past
        revert past
        decide
      rw [Disk.volume_block (by rw [dataStart_eq]; omega), format_disk other]
    · exact Nat.le_of_eq value.symm
    · exact fun live => absurd live gone
    · exact fun live => absurd live gone
  case size => exact fun live => absurd live gone

theorem makeRoot_spec : ∃ s, makeRoot format = .ok s ∧ Progress s [] := by
  have first : format.freeinode = rootino := rfl
  have gone : ¬ (format.disk.volume sb).Live format.freeinode := by
    rw [Volume.Live, format_dinode]
    exact fun live => live rfl
  obtain ⟨s₁, made, new⟩ := ialloc_spec tDir built_format (by decide) gone
  have root : (s₁.disk.volume sb).dinode rootino = newInode tDir := by
    rw [new.volume, first, Volume.dinode_setDinode]
  have empty : update (fun _ : Word => ([] : List Byte)) format.freeinode [] =
      fun _ => [] := update_eq_self ..
  have built₁ : Built s₁ fun _ => [] := empty ▸ new.built
  have live₁ : (s₁.disk.volume sb).Live rootino := by
    rw [Volume.Live, root]
    decide
  have free₁ : s₁.freeblock.toNat = nmeta := by
    rw [new.freeblock]
    decide
  have length : [dirent rootino [0x2e], dirent rootino [0x2e, 0x2e]].flatten.length = 32 := by
    decide
  obtain ⟨s₂, dots, two⟩ := appendReads_spec [dirent rootino [0x2e], dirent rootino [0x2e, 0x2e]]
    built₁ live₁ (by rw [length]; decide) (by rw [length, free₁]; decide)
  refine ⟨s₂, ?_, ?_⟩
  · simp only [foldlM_cons, List.foldlM_nil, bind_pure] at dots
    simp only [makeRoot, made, bind, Except.bind, first, ne_eq, not_true, if_false]
    exact dots
  have contents : update (fun _ : Word => ([] : List Byte)) rootino
      ([] ++ [dirent rootino [0x2e], dirent rootino [0x2e, 0x2e]].flatten) = contentsOf [] := by
    funext i
    rw [update_apply]
    unfold contentsOf
    split
    · rfl
    · split <;> rfl
  have inode : ∀ {i}, i ≠ rootino → (s₁.disk.volume sb).dinode i = Dinode.zero := by
    intro i other
    rw [new.volume, first, ← format_dinode i]
    exact update_of_ne other _ _
  have one : rootino.toNat = 1 := rfl
  have built := two.built
  rw [contents] at built
  refine ⟨⟨built.toBuilding, ?live, ?free, ?root, ?file, ?front⟩, built.size, ?freeinode⟩
  case freeinode =>
    rw [two.freeinode, new.freeinode]
    decide
  case live =>
    intro i
    rw [two.live]
    constructor
    · intro live
      by_cases same : i = rootino
      · rw [same]
        decide
      · rw [Volume.Live, inode same] at live
        exact absurd rfl live
    · rintro ⟨low, high⟩
      rw [length_nil] at high
      have same : i = rootino := eq_of_toNat_eq (by omega)
      rw [same]
      exact live₁
  case free =>
    have free := two.free
    rw [length, free₁] at free
    exact free
  case root =>
    obtain ⟨size, addrs, same⟩ := two.dinode rootino
    rw [same, root]
    rfl
  case file =>
    intro i other live
    rw [two.live, Volume.Live, inode other] at live
    exact absurd rfl live
  case front => exact fun b before => (two.front b before).trans (new.front b before)

variable {done : List InputFile}

theorem Progress.freeinode_eq (progress : Progress s done) :
    s.freeinode = ofNat 32 (done.length + 2) := by
  apply eq_of_toNat_eq
  have bound := s.freeinode.isLt
  rw [progress.freeinode] at bound ⊢
  exact (Nat.mod_eq_of_lt bound).symm

theorem addFile_spec {file : InputFile} (progress : Progress s done)
    (fits : Fits (done ++ [file])) :
    ∃ s', addFile s file = .ok s' ∧ Progress s' (done ++ [file]) := by
  have few : done.length + 2 < ninodes := by
    have inodes := fits.inodes
    rw [length_append, length_singleton] at inodes
    exact inodes
  have member : file ∈ done ++ [file] := List.mem_append_right _ (List.mem_singleton_self _)
  have number := progress.freeinode_eq
  have gone : ¬ (s.disk.volume sb).Live s.freeinode := by
    rw [progress.live, progress.freeinode]
    omega
  have known : s.freeinode < sb.ninodes := by
    show s.freeinode.toNat < ninodes
    rw [progress.freeinode]
    exact few
  have apart : rootino ≠ s.freeinode := by
    intro same
    have value := progress.freeinode
    rw [← same] at value
    have one : rootino.toNat = 1 := rfl
    omega
  have root : contentsOf done rootino = rootBytes done := if_pos rfl
  have limit : 16 * (done.length + 2) + 16 ≤ maxfile * bsize := by
    have most : 16 * ninodes + 16 ≤ maxfile * bsize := by decide
    omega
  have blocks := fits.blocks
  have sum := total_append done file
  obtain ⟨s₁, made, new⟩ := ialloc_spec tFile ⟨progress.toBuilding, progress.size⟩ known gone
  have others : Volume.Others (s.disk.volume sb) (s₁.disk.volume sb) s.freeinode := by
    rw [new.volume]
    exact Volume.others_setDinode _
  have free₁ : s₁.freeblock.toNat = nmeta + total done := by rw [new.freeblock, progress.free]
  -- the entry
  have root₁ : update (contentsOf done) s.freeinode [] rootino = rootBytes done := by
    rw [update_of_ne apart, root]
  have live₁ : (s₁.disk.volume sb).Live rootino := by
    rw [others.live apart, progress.live]
    have one : rootino.toNat = 1 := rfl
    omega
  have entry := iappend_spec (p := dirent s.freeinode file.entryName) new.built live₁
  rw [root₁, length_rootBytes, length_dirent, free₁] at entry
  obtain ⟨s₂, linked, two⟩ := entry limit (by omega)
  have free₂ := two.free
  rw [root₁, length_rootBytes, length_dirent, free₁] at free₂
  -- the contents
  have live₂ : (s₂.disk.volume sb).Live s.freeinode := by
    rw [two.live, new.volume, Volume.Live, Volume.dinode_setDinode]
    decide
  have contents₂ : update (update (contentsOf done) s.freeinode []) rootino
      (rootBytes done ++ dirent s.freeinode file.entryName) s.freeinode = [] := by
    rw [update_of_ne (Ne.symm apart), update_self]
  have built₂ := two.built
  rw [root₁] at built₂
  have body := appendReads_spec file.reads built₂ live₂
  rw [contents₂, length_nil, Nat.zero_add] at body
  obtain ⟨s₃, filled, three⟩ := body (fits.sizes file member) (by
    have zero : need 0 = 0 := by decide
    have same : need file.reads.flatten.length = need file.content.length := rfl
    omega)
  have free₃ := three.free
  rw [contents₂, length_nil, Nat.zero_add] at free₃
  have run : addFile s file = .ok s₃ := by
    simp only [addFile, if_neg (fits.names file member), made, linked, bind, Except.bind]
    exact filled
  have live₃ : ∀ i, (s₃.disk.volume sb).Live i ↔ i = s.freeinode ∨ (s.disk.volume sb).Live i := by
    intro i
    rw [three.live, two.live]
    by_cases same : i = s.freeinode
    · rw [same, new.volume, Volume.Live, Volume.dinode_setDinode]
      exact ⟨fun _ => .inl rfl, fun _ => by decide⟩
    · rw [others.live same]
      exact ⟨.inr, fun either => either.resolve_left same⟩
  have type₃ : ∀ i, ((s₃.disk.volume sb).dinode i).type = ((s₁.disk.volume sb).dinode i).type := by
    intro i
    obtain ⟨_, _, later⟩ := three.dinode i
    obtain ⟨_, _, before⟩ := two.dinode i
    rw [later, before]
  have most : ninodes = 200 := rfl
  have contents₃ : contentsOf (done ++ [file]) = update
      (update (update (contentsOf done) s.freeinode []) rootino
        (rootBytes done ++ dirent s.freeinode file.entryName)) s.freeinode
        ([] ++ file.reads.flatten) := by
    rw [contentsOf_append done file (by omega), rootBytes_append, ← number,
      Function.update_comm (Ne.symm apart), update_idem]
    rfl
  have built := three.built
  rw [contents₂, ← contents₃] at built
  refine ⟨s₃, run, ⟨built.toBuilding, ?live, ?free, ?root, ?others, ?front⟩, built.size, ?freeinode⟩
  case freeinode =>
    rw [three.freeinode, two.freeinode, new.freeinode, length_append, length_singleton,
      toNat_add, progress.freeinode]
    show (done.length + 2 + 1) % 2 ^ 32 = _
    omega
  case live =>
    intro i
    rw [live₃, progress.live, length_append, length_singleton]
    constructor
    · rintro (rfl | ⟨low, high⟩)
      · rw [progress.freeinode]
        omega
      · omega
    · rintro ⟨low, high⟩
      by_cases same : i.toNat = done.length + 2
      · exact .inl (eq_of_toNat_eq (same.trans progress.freeinode.symm))
      · exact .inr ⟨low, by omega⟩
  case free =>
    have zero : need 0 = 0 := by decide
    have same : need file.reads.flatten.length = need file.content.length := rfl
    omega
  case root => rw [type₃, others.dinode apart, progress.root]
  case others =>
    intro i other live
    rw [type₃]
    by_cases same : i = s.freeinode
    · rw [same, new.volume, Volume.dinode_setDinode]
      rfl
    · rw [others.dinode same]
      exact progress.file other (((live₃ i).mp live).resolve_left same)
  case front =>
    intro b before
    rw [three.front b before, two.front b before, new.front b before, progress.front b before]

theorem Fits.take {done rest : List InputFile} (fits : Fits (done ++ rest)) : Fits done where
  inodes := by
    have inodes := fits.inodes
    rw [length_append] at inodes
    omega
  sizes file member := fits.sizes file (List.mem_append_left _ member)
  blocks := by
    have blocks := fits.blocks
    have less := total_le_append done rest
    omega
  names file member := fits.names file (List.mem_append_left _ member)

theorem addFiles_spec (rest : List InputFile) : ∀ {s : Image} {done : List InputFile},
    Progress s done → Fits (done ++ rest) →
    ∃ s', rest.foldlM addFile s = .ok s' ∧ Progress s' (done ++ rest) := by
  induction rest with
  | nil =>
    intro s done progress fits
    exact ⟨s, rfl, (append_nil done).symm ▸ progress⟩
  | cons file rest ih =>
    intro s done progress fits
    have split : done ++ file :: rest = (done ++ [file]) ++ rest := by
      rw [append_assoc, List.singleton_append]
    rw [split] at fits ⊢
    obtain ⟨s₁, one, progress₁⟩ := addFile_spec progress fits.take
    obtain ⟨s₂, others, progress₂⟩ := ih progress₁ fits
    refine ⟨s₂, ?_, progress₂⟩
    rw [foldlM_cons, one]
    exact others

def rootSize (files : Nat) : Nat := (16 * (files + 2) / bsize + 1) * bsize

structure Finished (s : Image) (files : List InputFile) : Prop extends Laid s files where
  size : ∀ {i}, i ≠ rootino → (s.disk.volume sb).Live i →
    ((s.disk.volume sb).dinode i).size.toNat = (contentsOf files i).length
  rootSize : ((s.disk.volume sb).dinode rootino).size.toNat = rootSize files.length
  bitmap : ∀ b, b < bpb → (bitSet (s.disk sb.bmapstart) b = true ↔ b < s.freeblock.toNat)

theorem bitSet_zero (b : Nat) : bitSet (fun _ => 0) b = false := by
  have zero : Bytes.getByte (fun _ : Fin blockWords => (0 : Word)) (b / 8) = 0 := by
    unfold Bytes.getByte
    split
    · simp [Bytes.byteOf]
    · rfl
  rw [bitSet_eq, zero]
  exact BitVec.getLsbD_zero

theorem bitSet_prefix (used : Nat) {b : Nat} (inside : b < bpb) :
    bitSet ((range used).foldl setBit fun _ => 0) b = decide (b < used) := by
  induction used with
  | zero => exact bitSet_zero b
  | succ used ih =>
    rw [List.range_succ, List.foldl_append, List.foldl_cons, List.foldl_nil,
      bitSet_setBit _ _ inside, ih]
    by_cases same : b = used
    · simp [same]
    · simp only [same, decide_false, Bool.false_or, decide_eq_decide]
      omega

theorem fixRoot_spec (progress : Progress s done) (few : done.length + 1 < ninodes) :
    ∃ s' size, fixRoot s = .ok s' ∧ size.toNat = rootSize done.length ∧
      s'.disk.volume sb = (s.disk.volume sb).setDinode rootino
        { (s.disk.volume sb).dinode rootino with size := size } ∧
      s'.freeblock = s.freeblock ∧ SameFront s s' := by
  have known : rootino < sb.ninodes := by decide
  have live : (s.disk.volume sb).Live rootino := by
    rw [progress.live]
    have one : rootino.toNat = 1 := rfl
    omega
  have before : ((s.disk.volume sb).dinode rootino).size.toNat = 16 * (done.length + 2) := by
    rw [progress.size live, contentsOf, if_pos rfl, length_rootBytes]
  have read := rinode_ok (s := s) known
  generalize (s.disk.volume sb).dinode rootino = din at before read ⊢
  have value : ((din.size / ofNat 32 bsize + 1) * ofNat 32 bsize).toNat =
      Mkfs.rootSize done.length := by
    have most : ninodes = 200 := rfl
    rw [BitVec.toNat_mul, toNat_add, BitVec.toNat_udiv, before]
    show (16 * (done.length + 2) / 512 + 1) % 2 ^ 32 * 512 % 2 ^ 32 =
      (16 * (done.length + 2) / 512 + 1) * 512
    omega
  generalize sized : (din.size / ofNat 32 bsize + 1) * ofNat 32 bsize = size at value
  have run : fixRoot s =
      .ok { s with disk := s.disk.putDinode sb rootino { din with size := size } } := by
    simp only [fixRoot, read, bind, Except.bind, sized]
    exact winode_ok known
  exact ⟨{ s with disk := s.disk.putDinode sb rootino { din with size := size } }, size, run, value,
    Disk.volume_putDinode sb_valid known _, rfl, sameFront_putDinode known _⟩

theorem balloc_spec (small : s.freeblock.toNat < bpb) :
    ∃ s', balloc s s.freeblock = .ok s' ∧ s'.disk.volume sb = s.disk.volume sb ∧
      s'.freeblock = s.freeblock ∧ SameFront s s' ∧
      ∀ b, b < bpb → (bitSet (s'.disk sb.bmapstart) b = true ↔ b < s.freeblock.toNat) := by
  have bits : bpb = 4096 := rfl
  have signed : s.freeblock.toInt = s.freeblock.toNat :=
    BitVec.toInt_eq_toNat_of_lt (by omega)
  have sector : sb.bmapstart.toNat < fsSize := by decide
  generalize row : ((range s.freeblock.toNat).foldl setBit fun _ => 0) = buf
  have run : balloc s s.freeblock =
      .ok { s with disk := update s.disk sb.bmapstart buf } := by
    rw [balloc, signed, if_pos (by omega), Int.toNat_natCast]
    show Except.ok (wsect s sb.bmapstart ((range s.freeblock.toNat).foldl setBit _)) = _
    rw [row, wsect_eq sector]
  refine ⟨{ s with disk := update s.disk sb.bmapstart buf }, run,
    Disk.volume_bitmap sb_valid (Nat.le_refl _) sb.bmapstart_lt buf, rfl, ?_, ?_⟩
  · intro b before
    refine update_of_ne ?_ _ _
    rintro rfl
    revert before
    decide
  · intro b inside
    show bitSet (update s.disk sb.bmapstart buf sb.bmapstart) b = true ↔ _
    rw [update_self, ← row, bitSet_prefix _ inside, decide_eq_true_eq]

theorem main_spec {files : List InputFile} (fits : Fits files) :
    ∃ s, main files = .ok s ∧ Finished s files := by
  obtain ⟨s₀, made, progress₀⟩ := makeRoot_spec
  obtain ⟨s₁, added, progress⟩ := addFiles_spec files progress₀ fits
  rw [List.nil_append] at progress
  obtain ⟨s₂, size, fixed, value, volume₂, free₂, front₂⟩ := fixRoot_spec progress fits.inodes
  have small : s₂.freeblock.toNat < bpb := by
    have blocks := fits.blocks
    have most : fsSize < bpb := by decide
    rw [free₂, progress.free]
    omega
  obtain ⟨s₃, marked, volume₃, free₃, front₃, bits⟩ := balloc_spec small
  have others : Volume.Others (s₁.disk.volume sb) (s₃.disk.volume sb) rootino := by
    rw [volume₃, volume₂]
    exact Volume.others_setDinode _
  have root : (s₃.disk.volume sb).dinode rootino =
      { (s₁.disk.volume sb).dinode rootino with size := size } := by
    rw [volume₃, volume₂, Volume.dinode_setDinode]
  have live : ∀ i, (s₃.disk.volume sb).Live i ↔ (s₁.disk.volume sb).Live i := by
    intro i
    by_cases same : i = rootino
    · rw [same, Volume.Live, Volume.Live, root]
    · exact others.live same
  have build : Building (s₃.disk.volume sb) s₃.freeblock.toNat (contentsOf files) := by
    rw [free₃, free₂]
    refine progress.toBuilding.congr live (fun i => ?_) ?_
    · by_cases same : i = rootino
      · rw [same, root]
      · rw [others.dinode same]
    · rw [volume₃, volume₂]
      rfl
  refine ⟨s₃, ?_, ⟨build, ?_, ?_, ?_, ?_, ?_⟩, ?_, ?_, ?_⟩
  · simp only [main, made, added, fixed, bind, Except.bind]
    exact marked
  · exact fun i => (live i).trans (progress.live i)
  · rw [free₃, free₂, progress.free]
  · rw [root]
    exact progress.root
  · intro i other live'
    rw [others.dinode other]
    exact progress.file other ((live i).mp live')
  · intro b before
    rw [front₃ b before, front₂ b before, progress.front b before]
  · intro i other live'
    rw [others.dinode other]
    exact progress.size ((live i).mp live')
  · rw [root]
    exact value
  · rw [free₃]
    exact bits

structure Consistent (s : Image) : Prop where
  mapped : ∀ i, (s.disk.volume sb).Live i →
    (s.disk.volume sb).Mapped i (blocksFor ((s.disk.volume sb).dinode i).size.toNat)
  distinct : ∀ i j slot slot', (s.disk.volume sb).Live i → (s.disk.volume sb).Live j →
    (s.disk.volume sb).addr i slot ≠ 0 →
    (s.disk.volume sb).addr i slot = (s.disk.volume sb).addr j slot' → i = j ∧ slot = slot'
  handed : ∀ i slot, (s.disk.volume sb).Live i → (s.disk.volume sb).addr i slot ≠ 0 →
    nmeta ≤ ((s.disk.volume sb).addr i slot).toNat ∧
      ((s.disk.volume sb).addr i slot).toNat < s.freeblock.toNat
  bitmap : ∀ b, b < fsSize → (bitSet (s.disk sb.bmapstart) b = true ↔ b < s.freeblock.toNat)

theorem contentsOf_root (files : List InputFile) :
    (contentsOf files rootino).length = 16 * (files.length + 2) := by
  rw [contentsOf, if_pos rfl, length_rootBytes]

theorem root_hole {files : List InputFile} (finished : Finished s files)
    (full : (files.length + 2) % 32 = 0) (few : files.length + 1 < ninodes) : ¬ Consistent s := by
  intro consistent
  have one : rootino.toNat = 1 := rfl
  have live : (s.disk.volume sb).Live rootino := (finished.live rootino).mpr (by omega)
  have mapped := (finished.holds live).mapped
  have claimed := consistent.mapped rootino live
  have most : ninodes = 200 := rfl
  have blocks : blocksFor (contentsOf files rootino).length = (files.length + 2) / 32 := by
    rw [contentsOf_root]
    simp only [blocksFor, bsize]
    omega
  have more : blocksFor (rootSize files.length) = (files.length + 2) / 32 + 1 := by
    simp only [blocksFor, rootSize, bsize]
    omega
  have low : (files.length + 2) / 32 < maxfile := by
    have size : maxfile = 140 := rfl
    omega
  rw [blocks] at mapped
  rw [finished.rootSize, more] at claimed
  have absent := mapped.data _ low
  have present := claimed.data _ low
  rw [absent] at present
  omega

/-- The image that `mkfs` makes of files that fit is consistent exactly when the root directory does
not fill its blocks. -/
theorem main_consistent_iff (files : List InputFile) (fits : Fits files) :
    ∃ s, main files = .ok s ∧ (Consistent s ↔ (files.length + 2) % 32 ≠ 0) := by
  obtain ⟨s, built, finished⟩ := main_spec fits
  refine ⟨s, built, fun consistent full => ?_, fun ragged => ⟨fun i live => ?_, ?_, ?_, ?_⟩⟩
  · exact root_hole finished full fits.inodes consistent
  · have mapped := (finished.holds live).mapped
    by_cases root : i = rootino
    · have blocks : blocksFor (contentsOf files rootino).length =
          blocksFor (rootSize files.length) := by
        rw [contentsOf_root]
        simp only [blocksFor, rootSize, bsize]
        omega
      rw [root] at mapped ⊢
      rwa [finished.rootSize, ← blocks]
    · rwa [finished.size root live]
  · intro i j slot slot' live live' some same
    exact Volume.slot_unique finished.exact live live' some same
  · intro i slot live some
    exact finished.toSupply.handed live some
  · intro b inside
    exact finished.bitmap b (lt_trans inside (by decide))

def smallFile : InputFile where
  name := [0x5f, 0x61]
  reads := [[1, 2], [3]]
  string := by decide
  sized := by decide

theorem smallFile_fits : Fits [smallFile] where
  inodes := by decide
  sizes := by decide
  blocks := by decide
  names := by decide

/-- The image with one file is consistent. -/
theorem main_consistent_iff_small : Fits [smallFile] ∧
    ∃ s, main [smallFile] = .ok s ∧ Consistent s := by
  obtain ⟨s, built, consistent⟩ := main_consistent_iff [smallFile] smallFile_fits
  exact ⟨smallFile_fits, s, built, consistent.mpr (by decide)⟩

def thirtyFiles : List InputFile :=
  (List.finRange 30).map fun k =>
    { name := [BitVec.ofNat 8 (0x61 + k.val)]
      reads := []
      string := by
        revert k
        decide
      sized := by nofun }

theorem thirtyFiles_fits : Fits thirtyFiles where
  inodes := by decide
  sizes := by decide
  blocks := by decide
  names := by decide

/-- The image with thirty empty files has a hole in its root directory. -/
theorem main_thirtyFiles : Fits thirtyFiles ∧
    ∃ s, main thirtyFiles = .ok s ∧ ¬ Consistent s := by
  refine ⟨thirtyFiles_fits, ?_⟩
  obtain ⟨s, built, finished⟩ := main_spec thirtyFiles_fits
  exact ⟨s, built, root_hole finished (by decide) (by decide)⟩

end Xv6.Mkfs
