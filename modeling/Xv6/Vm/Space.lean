import Xv6.Library.Assignment
import Xv6.Vm.Paging

/-!
# Address spaces

What a page directory in memory means: for each pair of indices the entry found there, zero where
the page table is missing. The pages it is made of are held in roles: the directory itself, its
page tables, and the frames of the user part. In an address space no page is held in two roles and
none is on the free list, so that a change of one page table entry is a change of one entry of the
meaning, and of nothing else.
-/

namespace Xv6

open Function (update update_eq_self update_of_ne update_self)

def target (entry : Word) : Option Word :=
  if HasFlag pteP entry then some (p2v (pteAddr entry)) else none

theorem target_eq_some_iff {entry v : Word} :
    target entry = some v ↔ HasFlag pteP entry ∧ p2v (pteAddr entry) = v := by
  unfold target
  split
  · simp_all
  · simp_all

@[simp]
theorem target_zero : target 0 = none := if_neg (by decide)

theorem target_entry {v perm : Word} (aligned : Aligned v) (flags : IsFlags perm) :
    target (v2p v ||| perm ||| pteP) = some v := by
  rw [target, if_pos hasFlag_pteP, pteAddr_entry aligned.v2p flags, p2v_v2p]

namespace Mem

def tableAt (s : Mem) (pgdir : Word) (i : PtIndex) : Option Word := target (s.page pgdir i)

/-- The page table entry at a pair of indices, zero where there is no page table. -/
def pte (s : Mem) (pgdir : Word) (i j : PtIndex) : Word :=
  (s.tableAt pgdir i).elim 0 fun pgtab => s.page pgtab j

def frameAt (s : Mem) (pgdir : Word) (i j : PtIndex) : Option Word := target (s.pte pgdir i j)

def entry (s : Mem) (pgdir va : Word) : Word := s.pte pgdir (pdx va) (ptx va)

def frameOf (s : Mem) (pgdir va : Word) : Option Word := target (s.entry pgdir va)

/-- What a page is for in an address space. -/
inductive Role where
  | root
  | table (i : PtIndex)
  | frame (i j : PtIndex)
  deriving DecidableEq

def held (s : Mem) (pgdir : Word) : Role → Option Word
  | .root => some pgdir
  | .table i => s.tableAt pgdir i
  | .frame i j => if i.val < 512 then s.frameAt pgdir i j else none

def Structural (s : Mem) (pgdir v : Word) : Prop :=
  v = pgdir ∨ ∃ i, s.tableAt pgdir i = some v

variable {s s' : Mem} {pgdir v : Word} {i j : PtIndex}

theorem pte_of_table {pgtab : Word} (there : s.tableAt pgdir i = some pgtab) :
    s.pte pgdir i j = s.page pgtab j := by
  rw [pte, there]
  rfl

theorem pte_of_missing (missing : s.tableAt pgdir i = none) : s.pte pgdir i j = 0 := by
  rw [pte, missing]
  rfl

theorem exists_table (mapped : s.frameAt pgdir i j ≠ none) :
    ∃ pgtab, s.tableAt pgdir i = some pgtab := by
  cases there : s.tableAt pgdir i with
  | some pgtab => exact ⟨pgtab, rfl⟩
  | none =>
    rw [frameAt, pte_of_missing there, target_zero] at mapped
    exact absurd rfl mapped

theorem view_congr (same : s'.tableAt pgdir = s.tableAt pgdir)
    (tables : ∀ i pgtab, s.tableAt pgdir i = some pgtab → s'.page pgtab = s.page pgtab) :
    s'.pte pgdir = s.pte pgdir ∧ s'.held pgdir = s.held pgdir := by
  have pte : s'.pte pgdir = s.pte pgdir := by
    funext i j
    cases there : s.tableAt pgdir i with
    | none => rw [pte_of_missing there, pte_of_missing (by rw [same, there])]
    | some pgtab =>
      rw [pte_of_table there, pte_of_table (by rw [same, there]), tables i pgtab there]
  refine ⟨pte, ?_⟩
  funext role
  cases role <;> simp only [held, frameAt, same, pte]

def setEntry (s : Mem) (v : Word) (j : PtIndex) (x : Word) : Mem :=
  { s with page := Function.update s.page v (Function.update (s.page v) j x) }

def addTable (s : Mem) (pgdir : Word) (i : PtIndex) (pgtab : Word) : Mem :=
  ({ s with page := Function.update s.page pgtab fun _ => 0 }).setEntry pgdir i
    (v2p pgtab ||| pteP ||| pteW ||| pteU)

theorem setEntry_page_of_ne (s : Mem) {w : Word} (j : PtIndex) (x : Word) (ne : w ≠ v) :
    (s.setEntry v j x).page w = s.page w :=
  update_of_ne ne ..

theorem setEntry_page_self (s : Mem) (v : Word) (j : PtIndex) (x : Word) :
    (s.setEntry v j x).page v = update (s.page v) j x :=
  update_self ..

end Mem

open Mem (Role)

structure Space (k : Image) (s : Mem) (pgdir : Word) : Prop where
  injective : ∀ {r r' : Role} {v : Word},
    s.held pgdir r = some v → s.held pgdir r' = some v → r = r'
  managed : ∀ {r : Role} {v : Word}, s.held pgdir r = some v → Managed k v
  apart : ∀ {r : Role} {v : Word}, s.held pgdir r = some v → v ∉ s.freelist
  nodup : s.freelist.Nodup
  pool : ∀ v ∈ s.freelist, Managed k v

namespace Space

variable {k : Image} {s s' : Mem} {pgdir v x pgtab : Word} {i j i' j' : PtIndex}

theorem table_ne_root (space : Space k s pgdir) (there : s.tableAt pgdir i = some pgtab) :
    pgtab ≠ pgdir := by
  rintro rfl
  have table : s.held pgtab (.table i) = some pgtab := there
  have root : s.held pgtab .root = some pgtab := rfl
  cases space.injective table root

theorem table_injective (space : Space k s pgdir) (there : s.tableAt pgdir i = some pgtab)
    (there' : s.tableAt pgdir i' = some pgtab) : i = i' := by
  have first : s.held pgdir (.table i) = some pgtab := there
  have second : s.held pgdir (.table i') = some pgtab := there'
  cases space.injective first second
  rfl

theorem held_frame (held : s.held pgdir (.frame i j) = some v) :
    ∃ b, Aligned b ∧ b < kernbase ∧ pdx b = i ∧ ptx b = j ∧ s.frameOf pgdir b = some v := by
  obtain ⟨b, page, rfl, rfl⟩ := exists_page i j
  rw [Mem.held] at held
  split at held
  · rename_i user
    exact ⟨b, page, pdx_lt_iff.mp user, rfl, rfl, held⟩
  · cases held

theorem held_of_frameOf {b : Word} (user : b < kernbase) (mapped : s.frameOf pgdir b = some v) :
    s.held pgdir (.frame (pdx b) (ptx b)) = some v := by
  rw [Mem.held, if_pos (pdx_lt_iff.mpr user)]
  exact mapped

theorem frameOf_injective (space : Space k s pgdir) {b c : Word} (page : Aligned b)
    (page' : Aligned c) (user : b < kernbase) (user' : c < kernbase)
    (first : s.frameOf pgdir b = some v) (second : s.frameOf pgdir c = some v) : b = c := by
  obtain ⟨directory, table⟩ := Role.frame.inj
    (space.injective (held_of_frameOf user first) (held_of_frameOf user' second))
  exact eq_of_indices page page' directory table

theorem held_structural (structural : s.Structural pgdir v) :
    ∃ r, s.held pgdir r = some v ∧ ∀ i j, r ≠ .frame i j := by
  rcases structural with rfl | ⟨i, there⟩
  · exact ⟨.root, rfl, by nofun⟩
  · exact ⟨.table i, there, by nofun⟩

section

variable (space : Space k s pgdir)
include space

theorem frame_not_structural (held : s.held pgdir (.frame i j) = some v) :
    ¬ s.Structural pgdir v := by
  intro structural
  obtain ⟨r, holds, other⟩ := held_structural structural
  exact other i j (space.injective holds held)

theorem structural_not_free (structural : s.Structural pgdir v) : v ∉ s.freelist := by
  obtain ⟨r, holds, -⟩ := held_structural structural
  exact space.apart holds

theorem congr (s' : Mem) (same : ∀ v, s.Structural pgdir v → s'.page v = s.page v)
    (nodup : s'.freelist.Nodup) (pool : ∀ v ∈ s'.freelist, Managed k v)
    (apart : ∀ r v, s.held pgdir r = some v → v ∉ s'.freelist) :
    Space k s' pgdir ∧ s'.tableAt pgdir = s.tableAt pgdir ∧ s'.pte pgdir = s.pte pgdir := by
  have tables : s'.tableAt pgdir = s.tableAt pgdir := by
    funext i
    rw [Mem.tableAt, Mem.tableAt, same pgdir (.inl rfl)]
  obtain ⟨pte, held⟩ := Mem.view_congr tables fun i pgtab there => same pgtab (.inr ⟨i, there⟩)
  refine ⟨⟨?_, ?_, ?_, nodup, pool⟩, tables, pte⟩
  · rw [held]
    exact space.injective
  · rw [held]
    exact space.managed
  · rw [held]
    exact fun holds => apart _ _ holds

theorem tableAt_setEntry (there : s.tableAt pgdir i = some pgtab) :
    (s.setEntry pgtab j x).tableAt pgdir = s.tableAt pgdir := by
  funext i'
  rw [Mem.tableAt, Mem.tableAt, s.setEntry_page_of_ne j x (space.table_ne_root there).symm]

theorem pte_setEntry (there : s.tableAt pgdir i = some pgtab) (i' j' : PtIndex) :
    (s.setEntry pgtab j x).pte pgdir i' j' =
      if i' = i ∧ j' = j then x else s.pte pgdir i' j' := by
  have tables := space.tableAt_setEntry there (j := j) (x := x)
  cases there' : s.tableAt pgdir i' with
  | none =>
    have differ : i' ≠ i := by
      rintro rfl
      rw [there] at there'
      cases there'
    rw [Mem.pte_of_missing there', Mem.pte_of_missing (by rw [tables, there']),
      if_neg fun both => differ both.1]
  | some pgtab' =>
    rw [Mem.pte_of_table there', Mem.pte_of_table (by rw [tables, there'])]
    by_cases same : i' = i
    · subst same
      obtain rfl : pgtab = pgtab' := Option.some.inj (there.symm.trans there')
      rw [Mem.setEntry_page_self]
      by_cases index : j' = j
      · rw [index, update_self, if_pos ⟨rfl, rfl⟩]
      · rw [update_of_ne index, if_neg fun both => index both.2]
    · have apart : pgtab' ≠ pgtab := by
        rintro rfl
        exact same (space.table_injective there' there)
      rw [s.setEntry_page_of_ne j x apart, if_neg fun both => same both.1]

theorem entry_setEntry {a b : Word} (page : Aligned a) (other : Aligned b)
    (there : s.tableAt pgdir (pdx a) = some pgtab) :
    (s.setEntry pgtab (ptx a) x).entry pgdir b = if b = a then x else s.entry pgdir b := by
  rw [Mem.entry, space.pte_setEntry there]
  by_cases same : b = a
  · rw [if_pos same, same, if_pos ⟨rfl, rfl⟩]
  · rw [if_neg same, if_neg fun both => same (eq_of_indices other page both.1 both.2)]
    rfl

theorem held_setEntry (there : s.tableAt pgdir i = some pgtab) : (s.setEntry pgtab j x).held pgdir =
      update (s.held pgdir) (.frame i j) (if i.val < 512 then target x else none) := by
  funext role
  cases role with
  | root => rw [update_of_ne (by nofun)]; rfl
  | table i' =>
    rw [update_of_ne (by nofun), Mem.held, Mem.held, space.tableAt_setEntry there]
  | frame i' j' =>
    have entry := space.pte_setEntry there (j := j) (x := x) i' j'
    by_cases same : i' = i ∧ j' = j
    · rw [if_pos same] at entry
      obtain ⟨rfl, rfl⟩ := same
      rw [update_self, Mem.held, Mem.frameAt, entry]
    · rw [if_neg same] at entry
      rw [update_of_ne, Mem.held, Mem.held, Mem.frameAt, Mem.frameAt, entry]
      · intro equal
        cases equal
        exact same ⟨rfl, rfl⟩

theorem exact : Assignment.Exact (s.held pgdir) fun v => ∃ r, s.held pgdir r = some v where
  injective := space.injective
  used_iff _ := Iff.rfl

theorem hold_one (role : Role) (empty : s.held pgdir role = none)
    (held : s'.held pgdir = update (s.held pgdir) role (some v)) (managed : Managed k v)
    (loose : ∀ r, s.held pgdir r ≠ some v) (free : v ∉ s.freelist)
    (same : s'.freelist = s.freelist) :
    Space k s' pgdir := by
  have assigned := space.exact.assign empty (b := v) fun ⟨r, holds⟩ => loose r holds
  rw [← held] at assigned
  have origin : ∀ {r w}, s'.held pgdir r = some w → w = v ∨ ∃ r', s.held pgdir r' = some w :=
    fun holds => assigned.in_use holds
  refine ⟨assigned.injective, fun holds => ?_, fun holds => ?_, ?_, ?_⟩
  · rcases origin holds with rfl | ⟨r', old⟩
    · exact managed
    · exact space.managed old
  · rw [same]
    rcases origin holds with rfl | ⟨r', old⟩
    · exact free
    · exact space.apart old
  · rw [same]
    exact space.nodup
  · rw [same]
    exact space.pool

theorem mapFrame (there : s.tableAt pgdir i = some pgtab) (user : i.val < 512)
    (unmapped : s.frameAt pgdir i j = none) (named : target x = some v) (managed : Managed k v)
    (loose : ∀ r, s.held pgdir r ≠ some v) (free : v ∉ s.freelist) :
    Space k (s.setEntry pgtab j x) pgdir := by
  have held := space.held_setEntry there (j := j) (x := x)
  rw [if_pos user, named] at held
  refine space.hold_one (.frame i j) ?_ held managed loose free rfl
  rw [Mem.held, if_pos user, unmapped]

theorem of_held (held : s'.held pgdir = s.held pgdir) (same : s'.freelist = s.freelist) :
    Space k s' pgdir := by
  refine ⟨?_, ?_, ?_, ?_, ?_⟩
  · rw [held]
    exact space.injective
  · rw [held]
    exact space.managed
  · rw [held, same]
    exact space.apart
  · rw [same]
    exact space.nodup
  · rw [same]
    exact space.pool

theorem mapKernel (there : s.tableAt pgdir i = some pgtab) (kernel : ¬ i.val < 512) :
    Space k (s.setEntry pgtab j x) pgdir := by
  have held := space.held_setEntry there (j := j) (x := x)
  have none : s.held pgdir (.frame i j) = none := if_neg kernel
  rw [if_neg kernel, ← none, update_eq_self] at held
  exact space.of_held held rfl

theorem setFlags (there : s.tableAt pgdir i = some pgtab) (same : target x = s.frameAt pgdir i j) :
    Space k (s.setEntry pgtab j x) pgdir := by
  have held := space.held_setEntry there (j := j) (x := x)
  have before : s.held pgdir (.frame i j) = if i.val < 512 then target x else none := by
    rw [same]
    rfl
  rw [← before, update_eq_self] at held
  exact space.of_held held rfl

end

theorem target_tableEntry (aligned : Aligned v) :
    target (v2p v ||| pteP ||| pteW ||| pteU) = some v := by
  have order : v2p v ||| pteP ||| pteW ||| pteU = v2p v ||| (pteW ||| pteU) ||| pteP := by
    rw [BitVec.or_assoc, BitVec.or_assoc, BitVec.or_assoc]
    rfl
  rw [order]
  exact target_entry aligned rfl

theorem addTable (space : Space k s pgdir) (missing : s.tableAt pgdir i = none)
    (managed : Managed k pgtab) (loose : ∀ r, s.held pgdir r ≠ some pgtab)
    (free : pgtab ∉ s.freelist) :
    Space k (s.addTable pgdir i pgtab) pgdir ∧
      (s.addTable pgdir i pgtab).tableAt pgdir =
        update (s.tableAt pgdir) i (some pgtab) ∧
      (s.addTable pgdir i pgtab).pte pgdir = s.pte pgdir := by
  have differ : pgdir ≠ pgtab := fun same => loose .root (congrArg some same)
  have root : (s.addTable pgdir i pgtab).page pgdir =
      update (s.page pgdir) i (v2p pgtab ||| pteP ||| pteW ||| pteU) := by
    rw [Mem.addTable, Mem.setEntry_page_self]
    show update (update s.page pgtab _ pgdir) _ _ = _
    rw [update_of_ne differ]
  have others : ∀ w, w ≠ pgdir → w ≠ pgtab → (s.addTable pgdir i pgtab).page w = s.page w := by
    intro w notRoot notTable
    rw [Mem.addTable, Mem.setEntry_page_of_ne _ _ _ notRoot]
    exact update_of_ne notTable ..
  have empty : (s.addTable pgdir i pgtab).page pgtab = fun _ => 0 := by
    rw [Mem.addTable, Mem.setEntry_page_of_ne _ _ _ differ.symm]
    exact update_self ..
  have tables : (s.addTable pgdir i pgtab).tableAt pgdir =
      update (s.tableAt pgdir) i (some pgtab) := by
    funext i'
    rw [Mem.tableAt, root]
    by_cases same : i' = i
    · rw [same, update_self, update_self, target_tableEntry managed.1]
    · rw [update_of_ne same, update_of_ne same]
      rfl
  have entries : (s.addTable pgdir i pgtab).pte pgdir = s.pte pgdir := by
    funext i' j'
    by_cases same : i' = i
    · rw [same, Mem.pte_of_missing missing,
        Mem.pte_of_table (by rw [tables, update_self]), empty]
    · have keep : (s.addTable pgdir i pgtab).tableAt pgdir i' = s.tableAt pgdir i' := by
        rw [tables, update_of_ne same]
      cases there : s.tableAt pgdir i' with
      | none => rw [Mem.pte_of_missing there, Mem.pte_of_missing (keep.trans there)]
      | some other =>
        have notTable : other ≠ pgtab := by
          rintro rfl
          exact loose (.table i') there
        rw [Mem.pte_of_table there, Mem.pte_of_table (keep.trans there),
          others other (space.table_ne_root there) notTable]
  refine ⟨space.hold_one (.table i) missing ?_ managed loose free rfl, tables, entries⟩
  funext role
  cases role with
  | root => rw [update_of_ne (by nofun)]; rfl
  | table i' =>
    by_cases same : i' = i
    · rw [same, update_self, Mem.held, tables, update_self]
    · rw [update_of_ne fun equal => same (Role.table.inj equal), Mem.held, tables,
        update_of_ne same]
      rfl
  | frame i' j' =>
    rw [update_of_ne (by nofun), Mem.held, Mem.held, Mem.frameAt, Mem.frameAt, entries]

theorem unmapFrame (space : Space k s pgdir) (there : s.tableAt pgdir i = some pgtab)
    (user : i.val < 512) (mapped : s.frameAt pgdir i j = some v)
    (kept : ∀ w, w ≠ v → s'.page w = (s.setEntry pgtab j 0).page w)
    (freed : s'.freelist = v :: s.freelist) :
    Space k s' pgdir ∧ s'.tableAt pgdir = s.tableAt pgdir ∧
      ∀ i' j', s'.pte pgdir i' j' = if i' = i ∧ j' = j then 0 else s.pte pgdir i' j' := by
  have before : s.held pgdir (.frame i j) = some v := by rw [Mem.held, if_pos user, mapped]
  have held := space.held_setEntry there (j := j) (x := 0)
  rw [if_pos user, target_zero] at held
  have released := space.exact.release before
  rw [← held] at released
  have unmapped : Space k (s.setEntry pgtab j 0) pgdir := by
    refine ⟨released.injective, fun holds => ?_, fun holds => ?_, space.nodup, space.pool⟩
    · obtain ⟨-, r, old⟩ := released.in_use holds
      exact space.managed old
    · obtain ⟨-, r, old⟩ := released.in_use holds
      exact space.apart old
  have tables := space.tableAt_setEntry there (j := j) (x := 0)
  -- the frame is not a page of the directory, so that its junk changes no entry
  have outside : ∀ w, (s.setEntry pgtab j 0).Structural pgdir w → w ≠ v := by
    rintro w structural rfl
    rw [Mem.Structural, tables] at structural
    exact space.frame_not_structural before structural
  obtain ⟨final, tables', entries⟩ := unmapped.congr s'
    (fun w structural => kept w (outside w structural))
    (by
      rw [freed]
      exact List.nodup_cons.mpr ⟨space.apart before, space.nodup⟩)
    (by
      rw [freed]
      intro w member
      rcases List.mem_cons.mp member with rfl | rest
      · exact space.managed before
      · exact space.pool w rest)
    (by
      intro r w holds
      obtain ⟨differ, r', old⟩ := released.in_use holds
      rw [freed, List.mem_cons, not_or]
      exact ⟨differ, space.apart old⟩)
  refine ⟨final, tables'.trans tables, fun i' j' => ?_⟩
  rw [entries, space.pte_setEntry there]

end Space

end Xv6
