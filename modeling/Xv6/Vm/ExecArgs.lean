import Xv6.Vm.ExecSafe

/-!
# The arguments of a program

The stack that `exec` makes, as `main(argc, argv)` finds it: a return address, the number of
arguments, and a pointer to an array of pointers to strings that ends with a null pointer.
-/

namespace Xv6

open Bytes (Byte toBytes)
open ByteSpace (Memory)
open Program
open Tiling (Extent)

namespace Vm

section Decoding

variable (memory : Memory) (esp : Word)

def argcAt : Nat := (ByteSpace.word memory (esp + 4)).toNat

def argvAt : Word := ByteSpace.word memory (esp + 8)

def argAt (i : Nat) : Word := ByteSpace.word memory (argvAt memory esp + BitVec.ofNat 32 (4 * i))

def argString (i : Nat) : List Byte := ByteSpace.string memory (2 ^ 32) (argAt memory esp i)

def argsAt : List (List Byte) := (List.range (argcAt memory esp)).map (argString memory esp)

/-- The header, the array of pointers with the null pointer, and the strings with their zeros. -/
def argExtents : List Extent :=
  ⟨esp.toNat, 12⟩ :: ⟨(argvAt memory esp).toNat, 4 * (argcAt memory esp + 1)⟩ ::
    (List.range (argcAt memory esp)).map fun i =>
      ⟨(argAt memory esp i).toNat, (argString memory esp i).length + 1⟩

end Decoding

structure ArgsPassed (s : Mem) (loaded : Loaded) (argv : List (List Byte)) : Prop where
  stack : Stack s loaded.pgdir loaded.sz
  args : argsAt (s.userMemory loaded.pgdir) loaded.esp = argv
  returns : ByteSpace.word (s.userMemory loaded.pgdir) loaded.esp = 0xFFFFFFFF
  ended : argAt (s.userMemory loaded.pgdir) loaded.esp
    (argcAt (s.userMemory loaded.pgdir) loaded.esp) = 0
  apart : (argExtents (s.userMemory loaded.pgdir) loaded.esp).Pairwise Extent.Disjoint
  inside : ∀ part ∈ argExtents (s.userMemory loaded.pgdir) loaded.esp, ∀ x, part.Has x →
    loaded.sz.toNat - 4096 ≤ x ∧ x < loaded.sz.toNat

variable {k : Image} {s s₁ s₂ : Mem} {d sz top va sp : Word} {file : List Byte}
  {fault : Fault → Prop} {argv : List (List Byte)}

theorem Built.decoded {memory : Memory} {places : List Word} {esp : Word}
    (built : Built memory argv places top sp esp) :
    argcAt memory esp = places.length ∧ argvAt memory esp = esp + 12 ∧
      (List.range places.length).map (argAt memory esp) = places ∧
      argAt memory esp places.length = 0 := by
  have few : places.length ≤ 32 := built.few
  have number : ByteSpace.word memory (esp + 4) = BitVec.ofNat 32 places.length :=
    built.table 1 _ rfl
  have pointer : argvAt memory esp = esp + 12 := built.table 2 _ rfl
  have array : ∀ i word, (places ++ [0])[i]? = some word → argAt memory esp i = word := by
    intro i word there
    have found := built.table (3 + i) word (by
      rw [tableWords, List.append_assoc, List.getElem?_append_right (Nat.le_add_right 3 i)]
      show (places ++ [0])[3 + i - 3]? = _
      rw [Nat.add_sub_cancel_left]
      exact there)
    rw [argAt, pointer, ← found, BitVec.add_assoc, Nat.mul_add, BitVec.ofNat_add]
    rfl
  refine ⟨?_, pointer, List.ext_getElem ?_ fun i _ inside => ?_, array _ _ ?_⟩
  · rw [argcAt, number, BitVec.toNat_ofNat]
    omega
  · rw [List.length_map, List.length_range]
  · rw [List.getElem_map, List.getElem_range]
    refine array i _ ?_
    rw [List.getElem?_append_left inside, List.getElem?_eq_getElem inside]
  · rw [List.getElem?_append_right (Nat.le_refl _), Nat.sub_self]
    rfl

theorem Built.passed (loaded : Loaded) {places : List Word}
    (built : Built (s.userMemory loaded.pgdir) argv places loaded.sz sp loaded.esp)
    (stack : Stack s loaded.pgdir loaded.sz) (free : ∀ arg ∈ argv, (0 : Byte) ∉ arg) :
    ArgsPassed s loaded argv := by
  obtain ⟨number, pointer, pointers, null⟩ := built.decoded
  have first := built.table 0 _ rfl
  have limit := loaded.sz.isLt
  have laid := built.laid
  have below := laid.ordered
  have ends := built.ends
  have low := built.low
  have strings : (List.range places.length).map
      (argString (s.userMemory loaded.pgdir) loaded.esp) = argv := by
    rw [← laid.strings (by omega) free, ← congrArg (List.map _) pointers, List.map_map]
    rfl
  have array : (loaded.esp + 12).toNat = loaded.esp.toNat + 12 := by
    rw [BitVec.toNat_add]
    show (loaded.esp.toNat + 12) % 2 ^ 32 = _
    omega
  have parts : argExtents (s.userMemory loaded.pgdir) loaded.esp =
      ⟨loaded.esp.toNat, 12⟩ :: ⟨loaded.esp.toNat + 12, 4 * (places.length + 1)⟩ ::
        places.map (Laid.extent (s.userMemory loaded.pgdir)) := by
    rw [argExtents, number, pointer, array, ← congrArg (List.map (Laid.extent _)) pointers,
      List.map_map]
    rfl
  have between := laid.between (by omega) free
  refine ⟨stack, by rw [argsAt, number]; exact strings, ?_, by rw [number]; exact null, ?_, ?_⟩
  · rwa [BitVec.add_zero] at first
  · rw [parts, List.pairwise_cons, List.pairwise_cons, List.forall_mem_cons]
    refine ⟨⟨Extent.disjoint_of_before (Nat.le_refl _), fun part member => ?_⟩,
      fun part member => ?_, laid.disjoint (by omega) free⟩ <;>
    · have inside := between part member
      apply Extent.disjoint_of_before
      dsimp only
      omega
  · rw [parts, List.forall_mem_cons, List.forall_mem_cons]
    refine ⟨fun x has => ?_, fun x has => ?_, fun part member x has => ?_⟩
    · unfold Extent.Has at has
      dsimp only at has
      omega
    · unfold Extent.Has at has
      dsimp only at has
      omega
    · have inside := between part member
      unfold Extent.Has at has
      omega

section Wrapping

/-- A process of one page that holds a word which reads as the entry of another page. -/
def lure : Mem :=
  { onePage with
    page := Function.update onePage.page 0x80202000 fun j => if j = 0 then 0x00203007 else 0 }

theorem lure_page : lure.page 0x80202000 = fun j => if j = 0 then 0x00203007 else 0 := by
  simp only [lure, Function.update_self]

def lent : Mem := { lure with freelist := 0x80202000 :: 0x80203000 :: lure.freelist }

theorem lure_free {v : Word} (low : v.toNat < 0x80300000) : v ∉ lure.freelist := fun member =>
  absurd (freePages_managed (by decide) v member).2 (Nat.not_le.mpr low)

variable {s₂ s₃ : Mem}

/-- The directory at the first free page after its first entry was overwritten with the entry of
the page of the process. -/
structure Overwritten (s₂ s₃ : Mem) : Prop where
  root : s₃.page 0x80300000 = Function.update (s₂.page 0x80300000) 0 0x00202007
  others : ∀ v, v ≠ 0x80300000 → s₃.page v = s₂.page v
  freelist : s₃.freelist = s₂.freelist
  outages : s₃.outages = s₂.outages

namespace Overwritten

section

variable (written : Overwritten s₂ s₃)
include written

theorem tableAt (i : PtIndex) : s₃.tableAt 0x80300000 i =
    if i = 0 then some 0x80202000 else s₂.tableAt 0x80300000 i := by
  rw [Mem.tableAt, written.root]
  split
  · rename_i first
    rw [first, Function.update_self]
    decide
  · rename_i other
    rw [Function.update_of_ne other]
    rfl

theorem pte (filling : Filling smallImage lure 0x80300000 1 s₂) (i j : PtIndex) :
    s₃.pte 0x80300000 i j =
      if i = 0 then (if j = 0 then 0x00203007 else 0) else s₂.pte 0x80300000 i j := by
  by_cases first : i = 0
  · have there : s₃.tableAt 0x80300000 i = some 0x80202000 := by
      rw [written.tableAt, if_pos first]
    rw [Mem.pte_of_table there, written.others _ (by decide),
      filling.fresh.kept _ (lure_free (by decide)), if_pos first, lure_page]
  · have tables := written.tableAt i
    rw [if_neg first] at tables
    rw [if_neg first]
    cases there : s₂.tableAt 0x80300000 i with
    | none => rw [Mem.pte_of_missing there, Mem.pte_of_missing (tables.trans there)]
    | some pgtab =>
      rw [Mem.pte_of_table there, Mem.pte_of_table (tables.trans there),
        written.others _ (filling.fresh.space.table_ne_root there)]

theorem held (filling : Filling smallImage lure 0x80300000 1 s₂) {r : Mem.Role} {v : Word}
    (holds : s₃.held 0x80300000 r = some v) :
    r = .table 0 ∧ v = 0x80202000 ∨ r = .frame 0 0 ∧ v = 0x80203000 ∨
      s₂.held 0x80300000 r = some v ∧ v ∈ lure.freelist := by
  have old : s₂.held 0x80300000 r = some v → s₂.held 0x80300000 r = some v ∧ v ∈ lure.freelist :=
    fun same => ⟨same, filling.fresh.held r v same⟩
  cases r with
  | root => exact .inr (.inr (old holds))
  | table i =>
    rw [Mem.held, written.tableAt] at holds
    split at holds
    · rename_i first
      exact .inl ⟨by rw [first], (Option.some.inj holds).symm⟩
    · exact .inr (.inr (old holds))
  | frame i j =>
    rw [Mem.held, Mem.frameAt, written.pte filling] at holds
    by_cases first : i = 0
    · subst first
      rw [if_pos (by decide), if_pos rfl] at holds
      split at holds
      · rename_i second
        exact .inr (.inl ⟨by rw [second], (Option.some.inj holds).symm⟩)
      · cases holds
    · rw [if_neg first] at holds
      exact .inr (.inr (old holds))

end

theorem filling (written : Overwritten s₂ s₃) (filling : Filling smallImage lure 0x80300000 1 s₂) :
    Filling smallImage lent 0x80300000 1 s₃ := by
  have taken : ∀ {r v}, s₃.held 0x80300000 r = some v → v ∈ lent.freelist := by
    intro r v holds
    rcases written.held filling holds with ⟨-, rfl⟩ | ⟨-, rfl⟩ | ⟨-, member⟩
    · exact List.mem_cons_self
    · exact List.mem_cons_of_mem _ List.mem_cons_self
    · exact List.mem_cons_of_mem _ (List.mem_cons_of_mem _ member)
  have space := filling.fresh.space
  have unfree : (0x80202000 : Word) ∉ lure.freelist ∧ (0x80203000 : Word) ∉ lure.freelist :=
    ⟨lure_free (by decide), lure_free (by decide)⟩
  refine ⟨⟨⟨?_, ?_, ?_, ?_, ?_⟩, ?_, fun r v => taken, ?_⟩, ?_, ?_⟩
  · intro r r' v first second
    rcases written.held filling first with ⟨rfl, rfl⟩ | ⟨rfl, rfl⟩ | ⟨old, member⟩ <;>
    rcases written.held filling second with ⟨rfl, same⟩ | ⟨rfl, same⟩ | ⟨old', member'⟩
    · rfl
    · exact absurd same (by decide)
    · exact absurd member' unfree.1
    · exact absurd same (by decide)
    · rfl
    · exact absurd member' unfree.2
    · exact absurd (same ▸ member) unfree.1
    · exact absurd (same ▸ member) unfree.2
    · exact space.injective old old'
  · intro r v holds
    rcases written.held filling holds with ⟨-, rfl⟩ | ⟨-, rfl⟩ | ⟨old, -⟩
    · decide
    · decide
    · exact space.managed old
  · intro r v holds
    rw [written.freelist]
    rcases written.held filling holds with ⟨-, rfl⟩ | ⟨-, rfl⟩ | ⟨old, -⟩
    · exact fun member => unfree.1 (filling.fresh.pool member)
    · exact fun member => unfree.2 (filling.fresh.pool member)
    · exact space.apart old
  · rw [written.freelist]
    exact space.nodup
  · rw [written.freelist]
    exact space.pool
  · rw [written.freelist]
    intro v member
    exact List.mem_cons_of_mem _ (List.mem_cons_of_mem _ (filling.fresh.pool member))
  · intro v busy
    have busy' : v ∉ lure.freelist := fun member =>
      busy (List.mem_cons_of_mem _ (List.mem_cons_of_mem _ member))
    rw [written.others v, filling.fresh.kept v busy']
    · rfl
    · rintro rfl
      exact busy (taken (r := .root) rfl)
  · intro b page user
    by_cases first : pdx b = 0
    · have directory := congrArg Fin.val first
      rw [pdx_val] at directory
      have low : b.toNat / 2 ^ 22 = 0 := directory
      have place := aligned_iff.mp page
      have index : (ptx b).val = b.toNat / 4096 % 1024 := ptx_val
      have size : firstPage 1 = 4096 := rfl
      rw [Mem.frameOf, Mem.entry, written.pte filling, if_pos first, size]
      by_cases second : ptx b = 0
      · have table : b.toNat / 4096 % 1024 = 0 := index.symm.trans (congrArg Fin.val second)
        rw [if_pos second]
        exact iff_of_true (by decide) (by omega)
      · have table : (ptx b).val ≠ 0 := fun zero => second (Fin.ext zero)
        rw [if_neg second, target_zero]
        exact iff_of_false (fun some => some rfl) (by omega)
    · rw [← filling.maps b page user, Mem.frameOf, Mem.frameOf, Mem.entry, Mem.entry,
        written.pte filling, if_neg first]
  · intro b page above
    have high : 2 ^ 31 ≤ b.toNat := BitVec.le_def.mp above
    have other : pdx b ≠ 0 := by
      intro zero
      have index := congrArg Fin.val zero
      rw [pdx_val] at index
      have low : b.toNat / 2 ^ 22 = 0 := index
      omega
    rw [← filling.kernel b page above, Mem.entry, Mem.entry, written.pte filling, if_neg other]

theorem allUser (written : Overwritten s₂ s₃) (filling : Filling smallImage lure 0x80300000 1 s₂)
    (all : AllUser s₂ 0x80300000) : AllUser s₃ 0x80300000 := by
  intro b page user
  rw [Mem.frameOf, Mem.entry, written.pte filling]
  by_cases first : pdx b = 0
  · rw [if_pos first]
    split
    · exact fun _ => by decide
    · exact fun mapped => absurd target_zero mapped
  · rw [if_neg first]
    exact all b page user

theorem ready {count : Nat} {st : Stage} (written : Overwritten s₂ s₃)
    (filling : Filling smallImage lure 0x80300000 1 s₂) (all : AllUser s₂ 0x80300000)
    (plenty : st.Plenty count) (grants : s₂.grants = st.grants) :
    ∃ st, st.sz = 1 ∧ st.Plenty count ∧ Ready smallImage lent 0x80300000 st s₃ := by
  refine ⟨⟨1, true, s₃.present 0x80300000, s₃.grants⟩, rfl, fun n less => ?_,
    written.filling filling, written.allUser filling all, (by decide : (1 : Word) < kernbase), rfl,
    rfl⟩
  rw [← plenty n less, ← grants]
  show Mem.grants s₃ n = Mem.grants s₂ n
  simp only [Mem.grants, written.freelist, written.outages]

end Overwritten

attribute [local irreducible] makeStack

end Wrapping

end Vm

end Xv6
