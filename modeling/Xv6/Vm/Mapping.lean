import Mathlib.Data.Stream.Init
import Xv6.Vm.Space

/-!
# Mapping pages

`walkpgdir`, `mappages` and `setupkvm` on an address space. A walk that creates a page table leaves
every entry as it was, and a mapping changes the entries of its range; both take pages from the
free list and write to no page but these and the pages of the directory itself.
-/

namespace Xv6

open Function (update update_eq_self update_of_ne update_self)
open Program

namespace Mem

def missing (s : Mem) (pgdir : Word) : Nat :=
  (Finset.univ.filter fun i => s.tableAt pgdir i = none).card

/-- No allocation fails by chance, and the free list suffices for all page tables that the
directory lacks with some pages to spare. -/
def Stocked (s : Mem) (pgdir : Word) (spare : Nat) : Prop :=
  s.outages = [] ∧ s.missing pgdir + spare ≤ s.freelist.length

/-- Whether each of the coming `kalloc`s succeeds: it is no outage, and the free list has more pages
than were taken before it. -/
def grants (s : Mem) : Stream' Bool := fun n =>
  !s.outages.getD n false && decide (n - (s.outages.take n).count true < s.freelist.length)

def present (s : Mem) (pgdir : Word) (i : PtIndex) : Bool := (s.tableAt pgdir i).isSome

theorem grants_outage {s : Mem} {outages : List Bool} (chance : s.outages = true :: outages) :
    s.grants = .cons false { s with outages }.grants := by
  funext n
  cases n with
  | zero =>
    show s.grants 0 = false
    simp [grants, chance]
  | succ n =>
    show s.grants (n + 1) = { s with outages }.grants n
    simp [grants, chance]

theorem grants_empty {s : Mem} (empty : s.freelist = []) (outages : List Bool) :
    s.grants = .cons false { s with outages }.grants := by
  funext n
  cases n with
  | zero =>
    show s.grants 0 = false
    simp [grants, empty]
  | succ n =>
    show s.grants (n + 1) = { s with outages }.grants n
    simp [grants, empty]

theorem grants_taken {s : Mem} {v : Word} {freelist : List Word}
    (quiet : ∀ outages, s.outages ≠ true :: outages) (pool : s.freelist = v :: freelist) :
    s.grants = .cons true { s with freelist, outages := s.outages.tail }.grants := by
  funext n
  have later : ∀ n,
      Stream'.cons true { s with freelist, outages := s.outages.tail }.grants (n + 1) =
        { s with freelist, outages := s.outages.tail }.grants n := fun _ => rfl
  have now : Stream'.cons true { s with freelist, outages := s.outages.tail }.grants 0 = true := rfl
  cases chances : s.outages with
  | nil =>
    rw [chances] at later now
    cases n with
    | zero =>
      rw [now]
      simp [grants, chances, pool]
    | succ n =>
      rw [later]
      simp [grants, chances, pool]
  | cons first rest =>
    rw [chances] at later now
    cases first with
    | true => exact absurd chances (quiet rest)
    | false =>
      cases n with
      | zero =>
        rw [now]
        simp [grants, chances, pool]
      | succ n =>
        rw [later]
        have few : (rest.take n).count true ≤ n :=
          Nat.le_trans List.count_le_length (List.length_take_le _ _)
        have shift : n + 1 - (rest.take n).count true < freelist.length + 1 ↔
            n - (rest.take n).count true < freelist.length := by omega
        simp only [grants, chances, pool, List.getD_cons_succ, List.take_succ_cons,
          List.count_cons_of_ne (show false ≠ true by decide), List.length_cons, List.tail_cons]
        exact congrArg _ (decide_eq_decide.mpr shift)

theorem Stocked.mono {s : Mem} {pgdir : Word} {spare fewer : Nat} (stocked : s.Stocked pgdir spare)
    (le : fewer ≤ spare) : s.Stocked pgdir fewer :=
  ⟨stocked.1, Nat.le_trans (Nat.add_le_add_left le _) stocked.2⟩

theorem missing_update {s s' : Mem} {pgdir pgtab : Word} {i : PtIndex}
    (none : s.tableAt pgdir i = none)
    (tables : s'.tableAt pgdir = update (s.tableAt pgdir) i (some pgtab)) :
    s.missing pgdir = s'.missing pgdir + 1 := by
  have lacking : (Finset.univ.filter fun j => s'.tableAt pgdir j = Option.none) =
      (Finset.univ.filter fun j => s.tableAt pgdir j = Option.none).erase i := by
    ext j
    rw [tables]
    by_cases same : j = i
    · simp [same]
    · simp [same]
  have member : i ∈ Finset.univ.filter fun j => s.tableAt pgdir j = Option.none := by
    simpa using none
  rw [missing, missing, lacking, Finset.card_erase_of_mem member]
  have positive := Finset.card_pos.mpr ⟨i, member⟩
  omega

end Mem

structure Grown (k : Image) (pgdir : Word) (s s' : Mem) : Prop where
  space : Space k s' pgdir
  pool : s'.freelist <:+ s.freelist
  tables : ∀ i pgtab, s.tableAt pgdir i = some pgtab → s'.tableAt pgdir i = some pgtab
  structural : ∀ v, s'.Structural pgdir v → s.Structural pgdir v ∨ v ∈ s.freelist
  kept : ∀ v, v ∉ s.freelist → ¬ s.Structural pgdir v → s'.page v = s.page v

namespace Grown

variable {k : Image} {s s' s'' : Mem} {pgdir v pgtab x : Word} {i j : PtIndex}

theorem refl (space : Space k s pgdir) : Grown k pgdir s s where
  space := space
  pool := List.suffix_refl _
  tables _ _ there := there
  structural _ holds := .inl holds
  kept _ _ _ := rfl

theorem trans (first : Grown k pgdir s s') (second : Grown k pgdir s' s'') :
    Grown k pgdir s s'' where
  space := second.space
  pool := second.pool.trans first.pool
  tables i pgtab there := second.tables i pgtab (first.tables i pgtab there)
  structural v holds := by
    rcases second.structural v holds with old | taken
    · exact first.structural v old
    · exact .inr (first.pool.subset taken)
  kept v busy outside := by
    have outside' : ¬ s'.Structural pgdir v := fun holds =>
      (first.structural v holds).elim outside busy
    rw [second.kept v (fun member => busy (first.pool.subset member)) outside',
      first.kept v busy outside]

theorem setEntry (space : Space k s pgdir) (there : s.tableAt pgdir i = some pgtab)
    (after : Space k (s.setEntry pgtab j x) pgdir) : Grown k pgdir s (s.setEntry pgtab j x) := by
  have tables := space.tableAt_setEntry there (j := j) (x := x)
  refine ⟨after, List.suffix_refl _, ?_, ?_, ?_⟩
  · intro i' pgtab' there'
    rw [tables, there']
  · intro v holds
    rw [Mem.Structural, tables] at holds
    exact .inl holds
  · intro v _ outside
    exact s.setEntry_page_of_ne j x fun same => outside (.inr ⟨i, same ▸ there⟩)

end Grown

structure Tabled (k : Image) (pgdir : Word) (s s' : Mem) : Prop extends Grown k pgdir s s' where
  used : ∀ v ∈ s.freelist, v ∈ s'.freelist ∨ s'.Structural pgdir v
  stock : ∀ spare, s.Stocked pgdir spare → s'.Stocked pgdir spare

namespace Tabled

variable {k : Image} {s s' s'' : Mem} {pgdir pgtab x : Word} {i j : PtIndex}

theorem refl (space : Space k s pgdir) : Tabled k pgdir s s where
  toGrown := .refl space
  used _ member := .inl member
  stock _ stocked := stocked

theorem trans (first : Tabled k pgdir s s') (second : Tabled k pgdir s' s'') :
    Tabled k pgdir s s'' where
  toGrown := first.toGrown.trans second.toGrown
  used v member := by
    rcases first.used v member with free | root | ⟨i, there⟩
    · exact second.used v free
    · exact .inr (.inl root)
    · exact .inr (.inr ⟨i, second.tables i v there⟩)
  stock spare stocked := second.stock spare (first.stock spare stocked)

theorem setEntry (space : Space k s pgdir) (there : s.tableAt pgdir i = some pgtab)
    (after : Space k (s.setEntry pgtab j x) pgdir) :
    Tabled k pgdir s (s.setEntry pgtab j x) where
  toGrown := .setEntry space there after
  used _ member := .inl member
  stock spare stocked := by
    have tables := space.tableAt_setEntry there (j := j) (x := x)
    rw [Mem.Stocked, Mem.missing, tables]
    exact stocked

end Tabled

namespace Vm

variable {k : Image} {s : Mem} {pgdir va pgtab : Word} {fault : Fault → Prop}

section

variable (space : Space k s pgdir)
include space

variable {freelist : List Word} {outages : List Bool}

theorem grown_pool (pool : freelist <:+ s.freelist) (outages : List Bool) :
    Grown k pgdir s { s with freelist, outages } where
  space := (space.congr { s with freelist, outages } (fun _ _ => rfl)
    (space.nodup.sublist pool.sublist) (fun v member => space.pool v (pool.subset member))
    fun _ _ holds member => space.apart holds (pool.subset member)).1
  pool := pool
  tables _ _ there := there
  structural _ holds := .inl holds
  kept _ _ _ := rfl

theorem tabled_refused (quiet : s.outages = [] → outages = []) :
    Tabled k pgdir s { s with outages } where
  toGrown := grown_pool space (List.suffix_refl _) outages
  used _ member := .inl member
  stock _ stocked := ⟨quiet stocked.1, stocked.2⟩

theorem tabled_addTable {i : PtIndex} {pgtab : Word} (pool : s.freelist = pgtab :: freelist)
    (quiet : s.outages = [] → outages = []) (missing : s.tableAt pgdir i = none) :
    Tabled k pgdir s (({ s with freelist, outages } : Mem).addTable pgdir i pgtab) ∧
      (({ s with freelist, outages } : Mem).addTable pgdir i pgtab).pte pgdir = s.pte pgdir ∧
      (({ s with freelist, outages } : Mem).addTable pgdir i pgtab).tableAt pgdir =
        update (s.tableAt pgdir) i (some pgtab) := by
  have suffix : freelist <:+ s.freelist := ⟨[pgtab], pool.symm⟩
  have member : pgtab ∈ s.freelist := by
    rw [pool]
    exact List.mem_cons_self
  have popped := grown_pool space suffix outages
  have free : pgtab ∉ freelist := by
    have nodup := space.nodup
    rw [pool] at nodup
    exact (List.nodup_cons.mp nodup).1
  obtain ⟨after, tables, entries⟩ := popped.space.addTable missing (space.pool _ member)
    (fun r holds => space.apart holds member) free
  refine ⟨⟨⟨after, suffix, ?_, ?_, ?_⟩, ?_, ?_⟩, entries, tables⟩
  · intro i' other there
    have differ : i' ≠ i := by
      rintro rfl
      rw [missing] at there
      cases there
    rw [tables, update_of_ne differ]
    exact there
  · rintro v (root | ⟨i', there⟩)
    · exact .inl (.inl root)
    · by_cases same : i' = i
      · rw [tables, same, update_self] at there
        cases there
        exact .inr member
      · rw [tables, update_of_ne same] at there
        exact .inl (.inr ⟨i', there⟩)
  · intro v busy outside
    rw [Mem.addTable, Mem.setEntry_page_of_ne _ _ _ fun same => outside (.inl same)]
    refine update_of_ne ?_ ..
    rintro rfl
    exact busy member
  · intro v old
    rw [pool] at old
    rcases List.mem_cons.mp old with rfl | rest
    · exact .inr (.inr ⟨i, by rw [tables, update_self]⟩)
    · exact .inl rest
  · rintro spare ⟨none, enough⟩
    have fewer := Mem.missing_update (s := { s with freelist, outages }) missing tables
    have same : Mem.missing { s with freelist, outages } pgdir = s.missing pgdir := rfl
    rw [pool, List.length_cons] at enough
    refine ⟨quiet none, ?_⟩
    show _ ≤ freelist.length
    omega

theorem grown_take {v : Word} (pool : s.freelist = v :: freelist) (outages : List Bool)
    (contents : Page) :
    let s' : Mem := ⟨update s.page v contents, freelist, outages⟩
    Grown k pgdir s s' ∧ s'.pte pgdir = s.pte pgdir ∧ (∀ r, s'.held pgdir r ≠ some v) ∧
      v ∉ s'.freelist := by
  intro s'
  have suffix : freelist <:+ s.freelist := ⟨[v], pool.symm⟩
  have member : v ∈ s.freelist := by
    rw [pool]
    exact List.mem_cons_self
  have others : ∀ w, w ≠ v → s'.page w = s.page w := fun w differ =>
    update_of_ne differ ..
  obtain ⟨after, tables, entries⟩ := space.congr s'
    (fun w structural => others w fun same =>
      space.structural_not_free structural (same ▸ member))
    (space.nodup.sublist suffix.sublist) (fun w inside => space.pool w (suffix.subset inside))
    fun r w holds inside => space.apart holds (suffix.subset inside)
  have held : s'.held pgdir = s.held pgdir := by
    funext role
    cases role <;> simp only [Mem.held, Mem.frameAt, tables, entries]
  refine ⟨⟨after, suffix, ?_, ?_, ?_⟩, entries, ?_, ?_⟩
  · intro i pgtab there
    rw [tables, there]
  · intro w structural
    rw [Mem.Structural, tables] at structural
    exact .inl structural
  · intro w busy _
    refine others w fun same => ?_
    exact busy (same ▸ member)
  · intro r holds
    rw [held] at holds
    exact space.apart holds member
  · have nodup := space.nodup
    rw [pool] at nodup
    exact (List.nodup_cons.mp nodup).1

theorem tableAt_take {v : Word} (pool : s.freelist = v :: freelist) (outages : List Bool)
    (contents : Page) :
    Mem.tableAt ⟨update s.page v contents, freelist, outages⟩ pgdir = s.tableAt pgdir := by
  have differ : pgdir ≠ v := by
    rintro rfl
    refine space.apart (r := .root) rfl ?_
    rw [pool]
    exact List.mem_cons_self
  funext i
  simp only [Mem.tableAt, update_of_ne differ]

theorem stocked_take {v : Word} {spare : Nat} (pool : s.freelist = v :: freelist)
    (quiet : s.outages = [] → outages = []) (contents : Page)
    (stocked : s.Stocked pgdir (spare + 1)) :
    Mem.Stocked ⟨update s.page v contents, freelist, outages⟩ pgdir spare := by
  obtain ⟨none, enough⟩ := stocked
  rw [pool, List.length_cons] at enough
  refine ⟨quiet none, ?_⟩
  rw [Mem.missing, tableAt_take space pool outages contents]
  show s.missing pgdir + spare ≤ freelist.length
  omega

end

theorem wp_kalloc {post : Option Word → Mem → Prop}
    (failed : ∀ outages, (s.outages = [] → outages = [] ∧ s.freelist = []) →
      s.grants = .cons false { s with outages }.grants → post none { s with outages })
    (taken : ∀ v freelist outages, s.freelist = v :: freelist → (s.outages = [] → outages = []) →
      s.grants = .cons true { s with freelist, outages }.grants →
      post (some v) { s with freelist, outages }) : Wp kalloc post fault s := by
  simp only [kalloc, wp_bind, wp_get]
  split
  · rename_i chance
    refine failed _ (fun none => ?_) (Mem.grants_outage chance)
    rw [chance] at none
    cases none
  · rename_i empty _
    exact failed _ (fun none => ⟨by rw [none]; rfl, empty⟩) (Mem.grants_empty empty _)
  · rename_i pool quiet
    refine taken _ _ _ pool (fun none => by rw [none]; rfl) (Mem.grants_taken ?_ pool)
    exact fun outages chance => quiet outages chance

theorem wp_walk {post : Option PtePtr → Mem → Prop} :
    Wp (walkpgdir pgdir va false) post fault s ↔
      post ((s.tableAt pgdir (pdx va)).map fun pgtab => ⟨pgtab, ptx va⟩) s := by
  simp only [walkpgdir, loadEntry, wp_bind, wp_get, wp_pure, Mem.tableAt, target]
  by_cases present : HasFlag pteP (s.page pgdir (pdx va))
  · rw [if_pos present, if_pos present]
    rfl
  · rw [if_neg present, if_neg present]
    rfl

theorem wp_walk_there {post : Option PtePtr → Mem → Prop} {alloc : Bool}
    (there : s.tableAt pgdir (pdx va) = some pgtab) :
    Wp (walkpgdir pgdir va alloc) post fault s ↔ post (some ⟨pgtab, ptx va⟩) s := by
  obtain ⟨present, names⟩ := target_eq_some_iff.mp there
  simp only [walkpgdir, loadEntry, wp_bind, wp_get, wp_pure]
  rw [if_pos present, names, wp_pure]

/-- The `kalloc` of a walk to an address that may need a page table, and the page tables after
it. -/
def Walked (pgdir va : Word) (s s' : Mem) : Prop :=
  s.grants = (if s.present pgdir (pdx va) then s'.grants else .cons true s'.grants) ∧
    s'.present pgdir = update (s.present pgdir) (pdx va) true

def Denied (pgdir va : Word) (s s' : Mem) : Prop :=
  s.present pgdir (pdx va) = false ∧ s.grants = .cons false s'.grants ∧
    s'.present pgdir = s.present pgdir

theorem wp_walk_alloc {post : Option PtePtr → Mem → Prop} (space : Space k s pgdir)
    (failed : ∀ s', ¬ s.Stocked pgdir 0 → Tabled k pgdir s s' → s'.pte pgdir = s.pte pgdir →
      Denied pgdir va s s' → post none s')
    (found : ∀ s' pgtab, Tabled k pgdir s s' → s'.pte pgdir = s.pte pgdir →
      s'.tableAt pgdir (pdx va) = some pgtab → Walked pgdir va s s' →
      post (some ⟨pgtab, ptx va⟩) s') :
    Wp (walkpgdir pgdir va true) post fault s := by
  simp only [walkpgdir, loadEntry, wp_bind, wp_get, wp_pure]
  by_cases present : HasFlag pteP (s.page pgdir (pdx va))
  · have there : s.tableAt pgdir (pdx va) = some (p2v (pteAddr (s.page pgdir (pdx va)))) :=
      if_pos present
    have known : s.present pgdir (pdx va) = true := by rw [Mem.present, there, Option.isSome_some]
    rw [if_pos present]
    refine found s _ (.refl space) rfl there ⟨by rw [if_pos known], ?_⟩
    rw [← known, update_eq_self]
  · rw [if_neg present]
    have missing : s.tableAt pgdir (pdx va) = none := if_neg present
    have known : s.present pgdir (pdx va) = false := by
      rw [Mem.present, missing, Option.isSome_none]
    simp only [Bool.not_true, Bool.false_eq_true, if_false, wp_bind]
    apply wp_kalloc
    · intro outages short denied
      refine failed _ ?_ (tabled_refused space fun none => (short none).1) rfl
        ⟨known, denied, rfl⟩
      rintro ⟨none, enough⟩
      have lacking : 0 < s.missing pgdir := Finset.card_pos.mpr ⟨pdx va, by simpa using missing⟩
      rw [(short none).2, List.length_nil] at enough
      omega
    · intro pgtab freelist outages pool quiet granted
      obtain ⟨grown, entries, tables⟩ := tabled_addTable space pool quiet missing
      have there := congrFun tables (pdx va)
      rw [update_self] at there
      refine found _ pgtab grown entries there ⟨?_, ?_⟩
      · rw [known]
        exact granted
      · funext i
        refine (congrArg Option.isSome (congrFun tables i)).trans ?_
        by_cases same : i = pdx va
        · rw [same, update_self, update_self, Option.isSome_some]
        · rw [update_of_ne same, update_of_ne same]
          rfl

variable {post : Int → Mem → Prop}

theorem wp_mappagesLoop {last perm a pa : Word} {fuel : Nat} (space : Space k s pgdir)
    (unmapped : s.frameOf pgdir a = none)
    (failed : ∀ s', ¬ s.Stocked pgdir 0 → Tabled k pgdir s s' → s'.pte pgdir = s.pte pgdir →
      Denied pgdir a s s' → post (-1) s')
    (mapped : ∀ s' pgtab, Tabled k pgdir s s' → s'.pte pgdir = s.pte pgdir →
      s'.tableAt pgdir (pdx a) = some pgtab → Walked pgdir a s s' →
      Wp (if a = last then pure 0
        else mappagesLoop pgdir last perm fuel (a + pgsize) (pa + pgsize)) post fault
        (s'.setEntry pgtab (ptx a) (pa ||| perm ||| pteP))) :
    Wp (mappagesLoop pgdir last perm (fuel + 1) a pa) post fault s := by
  rw [mappagesLoop, wp_bind]
  apply wp_walk_alloc space
  · exact failed
  · intro s' pgtab grown entries there walked
    have absent : ¬ HasFlag pteP (s'.page pgtab (ptx a)) := by
      rw [← Mem.pte_of_table there, entries]
      intro present
      rw [Mem.frameOf, target, Mem.entry, if_pos present] at unmapped
      cases unmapped
    simp only [loadEntry, storeEntry, setPage, wp_bind, wp_get, wp_pure, wp_modify, if_neg absent]
    exact mapped s' pgtab grown entries there walked

theorem loose_of_grown {s' : Mem} {v : Word} (grown : Grown k pgdir s s')
    (entries : s'.pte pgdir = s.pte pgdir) (loose : ∀ r, s.held pgdir r ≠ some v)
    (free : v ∉ s.freelist) (r : Mem.Role) : s'.held pgdir r ≠ some v := by
  have outside : ¬ s'.Structural pgdir v := by
    intro structural
    rcases grown.structural v structural with old | taken
    · obtain ⟨r, holds, -⟩ := Space.held_structural old
      exact loose r holds
    · exact free taken
  cases r with
  | root => exact fun holds => outside (.inl (Option.some.inj holds).symm)
  | table i => exact fun holds => outside (.inr ⟨i, holds⟩)
  | frame i j =>
    rw [Mem.held, Mem.frameAt, entries]
    exact loose (.frame i j)

theorem mappages_page {a pa perm : Word} (aligned : Aligned a) :
    mappages pgdir a pgsize pa perm = mappagesLoop pgdir a perm 1 a pa := by
  have last : pgRoundDown (a + pgsize - 1) = a := by
    have page := aligned_iff.mp aligned
    apply BitVec.eq_of_toNat_eq
    rw [pgRoundDown_toNat]
    unfold pgsize
    bv_omega
  rw [mappages, aligned.pgRoundDown, last]
  simp

theorem wp_mapUser {a v perm : Word} (space : Space k s pgdir) (aligned : Aligned a)
    (user : a < kernbase) (unmapped : s.frameOf pgdir a = none) (flags : IsFlags perm)
    (managed : Managed k v) (loose : ∀ r, s.held pgdir r ≠ some v) (free : v ∉ s.freelist)
    (failed : ∀ s', ¬ s.Stocked pgdir 0 → Tabled k pgdir s s' → s'.pte pgdir = s.pte pgdir →
      Denied pgdir a s s' → post (-1) s') (mapped : ∀ s', Tabled k pgdir s s' →
      (∀ b, Aligned b → s'.entry pgdir b =
        if b = a then v2p v ||| perm ||| pteP else s.entry pgdir b) → Walked pgdir a s s' →
      post 0 s') :
    Wp (mappages pgdir a pgsize (v2p v) perm) post fault s := by
  rw [mappages_page aligned]
  apply wp_mappagesLoop space unmapped failed
  intro s' pgtab grown entries there walked
  rw [if_pos rfl, wp_pure]
  have after : Space k (s'.setEntry pgtab (ptx a) (v2p v ||| perm ||| pteP)) pgdir := by
    refine grown.space.mapFrame there (pdx_lt_iff.mpr user) ?_ (target_entry managed.1 flags)
      managed (loose_of_grown grown.toGrown entries loose free) fun member =>
        free (grown.pool.subset member)
    rw [Mem.frameAt, entries]
    exact unmapped
  have tables := grown.space.tableAt_setEntry there (j := ptx a) (x := v2p v ||| perm ||| pteP)
  refine mapped _ (grown.trans (.setEntry grown.space there after)) (fun b page => ?_)
    ⟨walked.1, ?_⟩
  · rw [grown.space.entry_setEntry aligned page there, Mem.entry, Mem.entry, entries]
  · rw [← walked.2]
    funext i
    rw [Mem.present, tables]
    rfl

theorem toNat_sub_next {a b : Word} (first : Aligned a) (second : Aligned b) (differ : b ≠ a) :
    4096 ≤ (b - a).toNat ∧ (b - (a + pgsize)).toNat = (b - a).toNat - 4096 := by
  have page := aligned_iff.mp first
  have page' := aligned_iff.mp second
  have distinct : b.toNat ≠ a.toNat := fun same => differ (BitVec.eq_of_toNat_eq same)
  unfold pgsize
  bv_omega

theorem toNat_next {a : Word} (small : a.toNat + 4096 < 2 ^ 32) :
    (a + pgsize).toNat = a.toNat + 4096 := by
  unfold pgsize
  bv_omega

theorem aligned_next {a : Word} (aligned : Aligned a) : Aligned (a + pgsize) := by
  rw [aligned_iff] at aligned ⊢
  unfold pgsize
  bv_omega

theorem wp_mapKernel {perm last : Word} (count : Nat) {a pa : Word} (space : Space k s pgdir)
    (aligned : Aligned a) (ends : last = a + BitVec.ofNat 32 (4096 * count))
    (small : 4096 * (count + 1) ≤ 2 ^ 32)
    (kernel : ∀ b, (b - a).toNat < 4096 * (count + 1) → ¬ b < kernbase)
    (unmapped : ∀ b, Aligned b → (b - a).toNat < 4096 * (count + 1) → s.frameOf pgdir b = none)
    (failed : ∀ s', ¬ s.Stocked pgdir 0 → Tabled k pgdir s s' → post (-1) s')
    (mapped : ∀ s', Tabled k pgdir s s' →
      (∀ b, Aligned b → s'.entry pgdir b =
        if (b - a).toNat < 4096 * (count + 1) then (pa + (b - a)) ||| perm ||| pteP
        else s.entry pgdir b) → post 0 s') :
    Wp (mappagesLoop pgdir last perm (count + 1) a pa) post fault s := by
  induction count generalizing s a pa with
  | zero =>
    apply wp_mappagesLoop space (unmapped a aligned (by simp))
      fun s' short grown _ _ => failed s' short grown
    intro s' pgtab grown entries there _
    have after : Space k (s'.setEntry pgtab (ptx a) (pa ||| perm ||| pteP)) pgdir :=
      grown.space.mapKernel there fun user => kernel a (by simp) (pdx_lt_iff.mp user)
    rw [if_pos (by simpa using ends.symm), wp_pure]
    refine mapped _ (grown.trans (.setEntry grown.space there after)) fun b page => ?_
    rw [grown.space.entry_setEntry aligned page there, Mem.entry, Mem.entry, entries]
    by_cases same : b = a
    · rw [if_pos same, if_pos (by rw [same]; simp), same]
      simp
    · rw [if_neg same, if_neg (by have := toNat_sub_next aligned page same; omega)]
  | succ count ih =>
    apply wp_mappagesLoop space (unmapped a aligned (by simp))
      fun s' short grown _ _ => failed s' short grown
    intro s' pgtab grown entries there _
    have after : Space k (s'.setEntry pgtab (ptx a) (pa ||| perm ||| pteP)) pgdir :=
      grown.space.mapKernel there fun user => kernel a (by simp) (pdx_lt_iff.mp user)
    have grown' := grown.trans (.setEntry grown.space there after)
    have first : ∀ b, Aligned b →
        (s'.setEntry pgtab (ptx a) (pa ||| perm ||| pteP)).entry pgdir b =
          if b = a then pa ||| perm ||| pteP else s.entry pgdir b := by
      intro b page
      rw [grown.space.entry_setEntry aligned page there, Mem.entry, Mem.entry, entries]
    have more : a ≠ last := by
      rw [ends]
      bv_omega
    have differ : ∀ b, (b - (a + pgsize)).toNat < 4096 * (count + 1) → b ≠ a := by
      rintro b near rfl
      unfold pgsize at near
      bv_omega
    rw [if_neg more]
    refine ih after (aligned_next aligned) ?_ (by omega) ?_ ?_ ?_ ?_
    · rw [ends]
      unfold pgsize
      bv_omega
    · intro b near
      apply kernel
      unfold pgsize at near
      have distinct : b.toNat ≠ a.toNat := fun same => differ b near (BitVec.eq_of_toNat_eq same)
      bv_omega
    · intro b page near
      rw [Mem.frameOf, first b page, if_neg (differ b near)]
      have := toNat_sub_next aligned page (differ b near)
      exact unmapped b page (by omega)
    · intro s'' short later
      exact failed s'' (fun stocked => short (grown'.stock 0 stocked)) (grown'.trans later)
    · intro s'' later rest
      refine mapped s'' (grown'.trans later) fun b page => ?_
      rw [rest b page, first b page]
      by_cases same : b = a
      · rw [if_neg fun near => differ b near same, if_pos same, if_pos (by rw [same]; simp), same]
        simp
      · have next := toNat_sub_next aligned page same
        have value : pa + pgsize + (b - (a + pgsize)) = pa + (b - a) := by
          unfold pgsize
          bv_omega
        rw [if_neg same, value]
        by_cases inside : (b - a).toNat < 4096 * (count + 1 + 1)
        · rw [if_pos inside, if_pos (by omega)]
        · rw [if_neg inside, if_neg (by omega)]

theorem wp_mapRange {va size pa perm : Word} (space : Space k s pgdir) (aligned : Aligned va)
    (whole : size.toNat % 4096 = 0) (nonempty : 0 < size.toNat)
    (kernel : ∀ b, (b - va).toNat < size.toNat → ¬ b < kernbase)
    (unmapped : ∀ b, Aligned b → (b - va).toNat < size.toNat → s.frameOf pgdir b = none)
    (failed : ∀ s', ¬ s.Stocked pgdir 0 → Tabled k pgdir s s' → post (-1) s')
    (mapped : ∀ s', Tabled k pgdir s s' →
      (∀ b, Aligned b → s'.entry pgdir b =
        if (b - va).toNat < size.toNat then (pa + (b - va)) ||| perm ||| pteP
        else s.entry pgdir b) → post 0 s') : Wp (mappages pgdir va size pa perm) post fault s := by
  obtain ⟨count, pages⟩ : ∃ count, size.toNat = 4096 * (count + 1) :=
    ⟨size.toNat / 4096 - 1, by omega⟩
  have bound := size.isLt
  have first := aligned_iff.mp aligned
  have last : pgRoundDown (va + size - 1) = va + BitVec.ofNat 32 (4096 * count) := by
    apply BitVec.eq_of_toNat_eq
    rw [pgRoundDown_toNat]
    bv_omega
  have rounds : (va + BitVec.ofNat 32 (4096 * count) - va).toNat / 4096 + 1 = count + 1 := by
    bv_omega
  rw [pages] at kernel unmapped mapped
  rw [mappages, aligned.pgRoundDown, last]
  simp only [rounds]
  exact wp_mapKernel count space aligned rfl (by omega) kernel unmapped failed mapped

namespace Kmap

def Covers (m : Kmap) (b : Word) : Prop := (b - m.virt).toNat < (m.physEnd - m.physStart).toNat

instance (m : Kmap) (b : Word) : Decidable (m.Covers b) := Nat.decLt ..

def entry (m : Kmap) (b : Word) : Word := (m.physStart + (b - m.virt)) ||| m.perm ||| pteP

structure Whole (m : Kmap) : Prop where
  aligned : Aligned m.virt
  pages : (m.physEnd - m.physStart).toNat % 4096 = 0
  nonempty : 0 < (m.physEnd - m.physStart).toNat
  kernel : ∀ b, m.Covers b → ¬ b < kernbase

end Kmap

def mapsEntry (maps : List Kmap) (b : Word) : Option Word :=
  (maps.find? fun m => m.Covers b).map fun m => m.entry b

theorem wp_setupLoop {post : Bool → Mem → Prop} (maps : List Kmap) (space : Space k s pgdir)
    (whole : ∀ m ∈ maps, m.Whole)
    (disjoint : maps.Pairwise fun m m' => ∀ b, m.Covers b → ¬ m'.Covers b)
    (unmapped : ∀ m ∈ maps, ∀ b, Aligned b → m.Covers b → s.frameOf pgdir b = none)
    (failed : ∀ s', ¬ s.Stocked pgdir 0 → Tabled k pgdir s s' → post false s')
    (mapped : ∀ s', Tabled k pgdir s s' →
      (∀ b, Aligned b → s'.entry pgdir b = (mapsEntry maps b).getD (s.entry pgdir b)) →
      post true s') :
    Wp (setupLoop pgdir maps) post fault s := by
  induction maps generalizing s with
  | nil => exact mapped s (.refl space) fun b _ => rfl
  | cons m rest ih =>
    obtain ⟨apart, disjoint'⟩ := List.pairwise_cons.mp disjoint
    have fits := whole m List.mem_cons_self
    rw [setupLoop, wp_bind]
    refine wp_mapRange space fits.aligned fits.pages fits.nonempty fits.kernel
      (unmapped m List.mem_cons_self) failed fun s' grown entries => ?_
    change ∀ b, Aligned b → s'.entry pgdir b =
      if m.Covers b then m.entry b else s.entry pgdir b at entries
    refine ih grown.space (fun m' member => whole m' (List.mem_cons_of_mem _ member)) disjoint'
      ?_ (fun s'' short later => ?_) fun s'' later others => ?_
    · intro m' member b page covered
      have outside : ¬ m.Covers b := fun here => apart m' member b here covered
      rw [Mem.frameOf, entries b page, if_neg outside]
      exact unmapped m' (List.mem_cons_of_mem _ member) b page covered
    · exact failed s'' (fun stocked => short (grown.stock 0 stocked)) (grown.trans later)
    · refine mapped s'' (grown.trans later) fun b page => ?_
      rw [others b page, entries b page, mapsEntry, mapsEntry]
      by_cases here : m.Covers b
      · have none : rest.find? (fun m' => m'.Covers b) = none := by
          rw [List.find?_eq_none]
          intro m' member
          simpa using apart m' member b here
        rw [none, List.find?_cons_of_pos (by simpa using here), if_pos here]
        rfl
      · rw [List.find?_cons_of_neg (by simpa using here), if_neg here]

theorem data_bounds (k : Image) :
    k.data.toNat % 4096 = 0 ∧ 0x80100000 < k.data.toNat ∧ k.data.toNat ≤ 0x80400000 := by
  have text := k.text
  have segment := k.segment
  have reach := k.reach
  unfold kernlink kernbase extmem at text
  unfold p2v kernbase at reach
  refine ⟨aligned_iff.mp k.aligned, ?_, ?_⟩ <;> bv_omega

structure Kmap.Range (m : Kmap) (start size : Nat) : Prop where
  starts : m.virt.toNat = start
  length : (m.physEnd - m.physStart).toNat = size
  fits : start + size ≤ 2 ^ 32

namespace Kmap.Range

variable {m m' : Kmap} {start size start' size' : Nat} {b : Word}

theorem covers_iff (range : m.Range start size) :
    m.Covers b ↔ start ≤ b.toNat ∧ b.toNat < start + size := by
  have starts := range.starts
  have fits := range.fits
  unfold Covers
  rw [range.length]
  bv_omega

theorem whole (range : m.Range start size) (aligned : start % 4096 = 0) (pages : size % 4096 = 0)
    (nonempty : 0 < size) (kernel : 0x80000000 ≤ start) : m.Whole where
  aligned := aligned_iff.mpr (by rw [range.starts, aligned])
  pages := by rw [range.length, pages]
  nonempty := by rw [range.length]; exact nonempty
  kernel b covered user := by
    have inside := range.covers_iff.mp covered
    have below : b.toNat < 0x80000000 := BitVec.lt_def.mp user
    omega

theorem apart (range : m.Range start size) (range' : m'.Range start' size')
    (before : start + size ≤ start') (b : Word) (covered : m.Covers b) : ¬ m'.Covers b := by
  rw [range.covers_iff] at covered
  rw [range'.covers_iff]
  omega

end Kmap.Range

section Ranges

variable (k : Image)

theorem ioRange : Kmap.Range ⟨kernbase, 0, extmem, pteW⟩ 0x80000000 0x100000 :=
  ⟨rfl, rfl, by omega⟩

theorem textRange : Kmap.Range ⟨kernlink, v2p kernlink, v2p k.data, 0⟩ 0x80100000
    (k.data.toNat - 0x80100000) := by
  obtain ⟨-, low, high⟩ := data_bounds k
  refine ⟨rfl, ?_, by omega⟩
  show (v2p k.data - v2p kernlink).toNat = _
  unfold v2p kernlink kernbase extmem
  bv_omega

theorem dataRange : Kmap.Range ⟨k.data, v2p k.data, physTop, pteW⟩ k.data.toNat
    (0x8E000000 - k.data.toNat) := by
  obtain ⟨-, low, high⟩ := data_bounds k
  refine ⟨rfl, ?_, by omega⟩
  show (physTop - v2p k.data).toNat = _
  unfold v2p physTop kernbase
  bv_omega

theorem devicesRange : Kmap.Range ⟨devspace, devspace, 0, pteW⟩ 0xFE000000 0x2000000 :=
  ⟨rfl, rfl, by omega⟩

end Ranges

theorem kmap_whole (k : Image) : ∀ m ∈ kmap k, m.Whole := by
  obtain ⟨aligned, low, high⟩ := data_bounds k
  intro m member
  simp only [kmap, List.mem_cons, List.not_mem_nil, or_false] at member
  rcases member with rfl | rfl | rfl | rfl
  · exact ioRange.whole (by omega) (by omega) (by omega) (by omega)
  · exact (textRange k).whole (by omega) (by omega) (by omega) (by omega)
  · exact (dataRange k).whole (by omega) (by omega) (by omega) (by omega)
  · exact devicesRange.whole (by omega) (by omega) (by omega) (by omega)

theorem kmap_disjoint (k : Image) :
    (kmap k).Pairwise fun m m' => ∀ b, m.Covers b → ¬ m'.Covers b := by
  obtain ⟨aligned, low, high⟩ := data_bounds k
  have text := textRange k
  have data := dataRange k
  simp only [kmap, List.pairwise_cons, List.mem_cons, List.not_mem_nil, or_false, forall_eq_or_imp,
    forall_eq, IsEmpty.forall_iff, implies_true, List.Pairwise.nil, and_true]
  exact ⟨⟨ioRange.apart text (by omega), ioRange.apart data (by omega),
    ioRange.apart devicesRange (by omega)⟩, ⟨text.apart data (by omega),
    text.apart devicesRange (by omega)⟩, data.apart devicesRange (by omega)⟩

def kernelEntry (k : Image) (b : Word) : Word := (mapsEntry (kmap k) b).getD 0

theorem kernelEntry_user {b : Word} (user : b < kernbase) : kernelEntry k b = 0 := by
  have none : (kmap k).find? (fun m => m.Covers b) = none := by
    rw [List.find?_eq_none]
    intro m member
    simpa using fun covered => (kmap_whole k m member).kernel b covered user
  rw [kernelEntry, mapsEntry, none]
  rfl

/-- A page directory that was made from pages of the free list, with every page outside that list
as it was. -/
structure Fresh (k : Image) (s : Mem) (d : Word) (s' : Mem) : Prop where
  space : Space k s' d
  pool : s'.freelist ⊆ s.freelist
  held : ∀ r v, s'.held d r = some v → v ∈ s.freelist
  kept : ∀ v, v ∉ s.freelist → s'.page v = s.page v

variable {s' s'' : Mem} {d : Word}

theorem Fresh.later (fresh : Fresh k s d s') (space : Space k s'' d)
    (pool : s''.freelist ⊆ s'.freelist)
    (tables : ∀ v, s''.Structural d v → s'.Structural d v ∨ v ∈ s'.freelist)
    (kept : ∀ v, v ∉ s'.freelist → ¬ s'.Structural d v → s''.page v = s'.page v)
    (frames : ∀ b v, Aligned b → b < kernbase → s''.frameOf d b = some v → v ∈ s.freelist) :
    Fresh k s d s'' := by
  have structural : ∀ v, s''.Structural d v → v ∈ s.freelist := by
    intro v holds
    rcases tables v holds with old | taken
    · obtain ⟨r, held, -⟩ := Space.held_structural old
      exact fresh.held r v held
    · exact fresh.pool taken
  refine ⟨space, List.Subset.trans pool fresh.pool, ?_, ?_⟩
  · intro r v held
    cases r with
    | root => exact structural v (.inl (Option.some.inj held).symm)
    | table i => exact structural v (.inr ⟨i, held⟩)
    | frame i j =>
      obtain ⟨b, page, user, -, -, mapped⟩ := Space.held_frame held
      exact frames b v page user mapped
  · intro v busy
    rw [kept v (fun member => busy (fresh.pool member)) fun holds => ?_, fresh.kept v busy]
    obtain ⟨r, held, -⟩ := Space.held_structural holds
    exact busy (fresh.held r v held)

theorem Fresh.grow (fresh : Fresh k s d s') (grown : Grown k d s' s'')
    (frames : ∀ b v, Aligned b → b < kernbase → s''.frameOf d b = some v → v ∈ s.freelist) :
    Fresh k s d s'' :=
  fresh.later grown.space grown.pool.subset grown.structural grown.kept frames

theorem fresh_empty {freelist : List Word} (nodup : s.freelist.Nodup)
    (managed : ∀ v ∈ s.freelist, Managed k v) (pool : s.freelist = d :: freelist)
    (outages : List Bool) :
    let s' : Mem := ⟨update s.page d fun _ => 0, freelist, outages⟩
    Fresh k s d s' ∧ ∀ b, s'.entry d b = 0 := by
  intro s'
  have tables : s'.tableAt d = fun _ => none := by
    funext i
    show target (update s.page d _ d i) = none
    rw [update_self]
    exact target_zero
  have entries : ∀ i j, s'.pte d i j = 0 := fun i j => Mem.pte_of_missing (by rw [tables])
  have root : ∀ r v, s'.held d r = some v → r = .root ∧ v = d := by
    intro r v holds
    cases r with
    | root => exact ⟨rfl, (Option.some.inj holds).symm⟩
    | table i =>
      rw [Mem.held, tables] at holds
      cases holds
    | frame i j =>
      rw [Mem.held, Mem.frameAt, entries, target_zero, ite_self] at holds
      cases holds
  rw [pool] at nodup managed
  refine ⟨⟨⟨?_, ?_, ?_, nodup.of_cons, ?_⟩, pool ▸ List.subset_cons_self _ _, ?_, ?_⟩,
    fun b => entries _ _⟩
  · intro r r' v first second
    rw [(root r v first).1, (root r' v second).1]
  · intro r v holds
    rw [(root r v holds).2]
    exact managed d List.mem_cons_self
  · intro r v holds
    rw [(root r v holds).2]
    exact (List.nodup_cons.mp nodup).1
  · exact fun v member => managed v (List.mem_cons_of_mem _ member)
  · intro r v holds
    rw [(root r v holds).2, pool]
    exact List.mem_cons_self
  · intro v busy
    refine update_of_ne ?_ ..
    rintro rfl
    rw [pool] at busy
    exact busy List.mem_cons_self

theorem missing_le (s : Mem) (pgdir : Word) : s.missing pgdir ≤ 1024 :=
  (Finset.card_le_univ _).trans (by simp [npentries])

theorem wp_setupkvm {post : Option Word → Mem → Prop} (nodup : s.freelist.Nodup)
    (managed : ∀ v ∈ s.freelist, Managed k v)
    (failed : ∀ s', ¬ (s.outages = [] ∧ 1025 ≤ s.freelist.length) →
      s'.freelist ⊆ s.freelist → (∀ v, v ∉ s.freelist → s'.page v = s.page v) → post none s')
    (made : ∀ d s', Fresh k s d s' →
      (∀ spare, s.outages = [] → 1025 + spare ≤ s.freelist.length → s'.Stocked d spare) →
      (∀ b, Aligned b → s'.entry d b = kernelEntry k b) → post (some d) s') :
    Wp (setupkvm k) post fault s := by
  rw [setupkvm, wp_bind]
  apply wp_kalloc
  · intro outages short _
    refine failed _ ?_ (List.Subset.refl _) fun _ _ => rfl
    rintro ⟨none, enough⟩
    rw [(short none).2] at enough
    exact absurd enough (by decide)
  · intro d freelist outages pool quiet _
    obtain ⟨fresh, empty⟩ := fresh_empty nodup managed pool outages
    have stocked : ∀ spare, s.outages = [] → 1025 + spare ≤ s.freelist.length →
        Mem.Stocked ⟨update s.page d fun _ => 0, freelist, outages⟩ d spare := by
      intro spare none enough
      have lacking := missing_le ⟨update s.page d fun _ => 0, freelist, outages⟩ d
      rw [pool, List.length_cons] at enough
      refine ⟨quiet none, ?_⟩
      show _ ≤ freelist.length
      omega
    simp only [setPage, wp_bind, wp_modify]
    rw [if_neg (by decide), wp_bind]
    apply wp_setupLoop (kmap k) fresh.space (kmap_whole k) (kmap_disjoint k)
    · intro m member b page covered
      rw [Mem.frameOf, empty b, target_zero]
    · intro s' short grown
      refine failed s' (fun enough => short (stocked 0 enough.1 enough.2))
        (List.Subset.trans grown.pool.subset fresh.pool) fun v busy => ?_
      rw [grown.kept v (fun member => busy (fresh.pool member)) fun holds => ?_,
        fresh.kept v busy]
      obtain ⟨r, held, -⟩ := Space.held_structural holds
      exact busy (fresh.held r v held)
    · intro s' grown entries
      have kernel : ∀ b, Aligned b → s'.entry d b = kernelEntry k b := by
        intro b page
        rw [entries b page, empty b]
        rfl
      refine made d s' (fresh.grow grown.toGrown ?_) ?_ kernel
      · intro b v page user mapped
        rw [Mem.frameOf, kernel b page, kernelEntry_user user, target_zero] at mapped
        cases mapped
      · exact fun spare none enough => grown.stock spare (stocked spare none enough)

end Vm

end Xv6
