import Xv6.Library.Run
import Xv6.Vm.Mapping

/-!
# Releasing pages

`deallocuvm` and `freevm` on an address space. The loop of `deallocuvm` steps over a page table
that is missing by adding the size of its range to the address, which leads to the start of the
next range only from the start of one: from an address in the middle it steps over pages of the
next page table as well. It frees all pages of the range exactly when none of those is mapped.
-/

namespace Xv6

open BitVec (ofNat eq_of_toNat_eq lt_def toNat_add toNat_ofNat le_def)
open Function (update update_of_ne update_self)
open Program

/-- The frames of the mapped pages among `count` pages from an address on, in order. -/
def framesIn (s : Mem) (pgdir : Word) : Nat → Word → List Word
  | 0, _ => []
  | count + 1, a => (s.frameOf pgdir a).toList ++ framesIn s pgdir count (a + pgsize)

def Junk (page : Page) : Prop := ∀ i, i ≠ 0 → page i = 0x01010101

/-- Pages from address `lo` up to `hi` were unmapped and their frames freed in order. -/
structure Released (k : Image) (pgdir : Word) (s s' : Mem) (lo hi : Nat) (frames : List Word) :
    Prop where
  space : Space k s' pgdir
  tables : s'.tableAt pgdir = s.tableAt pgdir
  entries : ∀ b, Aligned b → s'.entry pgdir b =
    if lo ≤ b.toNat ∧ b.toNat < hi ∧ s.frameOf pgdir b ≠ none then 0 else s.entry pgdir b
  mapped : ∀ v, v ∈ frames ↔
    ∃ b, Aligned b ∧ lo ≤ b.toNat ∧ b.toNat < hi ∧ s.frameOf pgdir b = some v
  freelist : s'.freelist = frames.reverse ++ s.freelist
  kept : ∀ v, v ∉ frames → ¬ s.Structural pgdir v → s'.page v = s.page v
  junk : ∀ v ∈ frames, Junk (s'.page v)

section Frames

variable {s s' : Mem} {pgdir a : Word}

theorem framesIn_congr (count : Nat) (same : ∀ b, Aligned b → a.toNat ≤ b.toNat →
      s'.frameOf pgdir b = s.frameOf pgdir b) (aligned : Aligned a)
    (small : a.toNat + 4096 * count ≤ 2 ^ 32) :
    framesIn s' pgdir count a = framesIn s pgdir count a := by
  induction count generalizing a with
  | zero => rfl
  | succ count ih =>
    rw [framesIn, framesIn, same a aligned (Nat.le_refl _)]
    congr 1
    cases count with
    | zero => rfl
    | succ count =>
      have small' : a.toNat + 4096 < 2 ^ 32 := by omega
      refine ih (fun b page low => ?_) (Vm.aligned_next aligned) ?_
      · rw [Vm.toNat_next small'] at low
        exact same b page (by omega)
      · rw [Nat.mul_succ, Nat.add_comm _ 4096, ← Nat.add_assoc] at small
        rw [Vm.toNat_next small']
        exact small

theorem framesIn_skip (skipped count : Nat) (aligned : Aligned a)
    (unmapped : ∀ b, Aligned b → a.toNat ≤ b.toNat → b.toNat < a.toNat + 4096 * skipped →
      s.frameOf pgdir b = none) (small : a.toNat + 4096 * (skipped + count) ≤ 2 ^ 32) :
    framesIn s pgdir (skipped + count) a =
      framesIn s pgdir count (a + ofNat 32 (4096 * skipped)) := by
  induction skipped generalizing a with
  | zero => simp
  | succ skipped ih =>
    rw [Nat.add_right_comm, framesIn, unmapped a aligned (Nat.le_refl _) (by omega)]
    by_cases more : skipped + count = 0
    · obtain ⟨rfl, rfl⟩ : skipped = 0 ∧ count = 0 := by omega
      rfl
    · have small' : a.toNat + 4096 < 2 ^ 32 := by omega
      have target : a + pgsize + ofNat 32 (4096 * skipped) =
          a + ofNat 32 (4096 * (skipped + 1)) := by
        unfold pgsize
        bv_omega
      rw [Option.toList_none, List.nil_append, ih (Vm.aligned_next aligned) ?_ ?_, target]
      · intro b page low high
        rw [Vm.toNat_next small'] at low high
        exact unmapped b page (by omega) (by omega)
      · rw [Vm.toNat_next small']
        omega

end Frames

namespace Released

variable {k : Image} {pgdir : Word} {s s' s'' : Mem} {lo mid hi : Nat} {first second : List Word}

theorem of_unmapped (space : Space k s pgdir)
    (unmapped : ∀ b, Aligned b → lo ≤ b.toNat → b.toNat < hi → s.frameOf pgdir b = none) :
    Released k pgdir s s lo hi [] where
  space := space
  tables := rfl
  entries b page := by
    rw [if_neg]
    rintro ⟨low, high, mapped⟩
    exact mapped (unmapped b page low high)
  mapped v := by
    refine iff_of_false List.not_mem_nil ?_
    rintro ⟨b, page, low, high, frame⟩
    rw [unmapped b page low high] at frame
    cases frame
  freelist := rfl
  kept _ _ _ := rfl
  junk _ member := absurd member List.not_mem_nil

section

variable (released : Released k pgdir s s' lo hi first)
include released

theorem frameOf_outside {b : Word} (page : Aligned b) (outside : b.toNat < lo ∨ hi ≤ b.toNat) :
    s'.frameOf pgdir b = s.frameOf pgdir b := by
  rw [Mem.frameOf, released.entries b page, if_neg (by omega)]
  rfl

theorem frameOf_inside {b : Word} (page : Aligned b) (low : lo ≤ b.toNat) (high : b.toNat < hi) :
    s'.frameOf pgdir b = none := by
  rw [Mem.frameOf, released.entries b page]
  by_cases mapped : s.frameOf pgdir b = none
  · rw [if_neg fun all => all.2.2 mapped]
    exact mapped
  · rw [if_pos ⟨low, high, mapped⟩, target_zero]

theorem bounds_congr {lo' hi' : Nat}
    (same : ∀ b, Aligned b → s.frameOf pgdir b ≠ none →
      (lo' ≤ b.toNat ∧ b.toNat < hi' ↔ lo ≤ b.toNat ∧ b.toNat < hi)) :
    Released k pgdir s s' lo' hi' first where
  space := released.space
  tables := released.tables
  entries b page := by
    rw [released.entries b page]
    by_cases mapped : s.frameOf pgdir b = none
    · rw [if_neg fun all => all.2.2 mapped, if_neg fun all => all.2.2 mapped]
    · have range := same b page mapped
      by_cases inside : lo ≤ b.toNat ∧ b.toNat < hi
      · rw [if_pos ⟨inside.1, inside.2, mapped⟩,
          if_pos ⟨(range.mpr inside).1, (range.mpr inside).2, mapped⟩]
      · rw [if_neg fun all => inside ⟨all.1, all.2.1⟩,
          if_neg fun all => inside (range.mp ⟨all.1, all.2.1⟩)]
  mapped v := by
    rw [released.mapped v]
    refine exists_congr fun b => and_congr_right fun page => ?_
    rw [← and_assoc, ← and_assoc]
    refine and_congr_left fun frame => (same b page ?_).symm
    rw [frame]
    nofun
  freelist := released.freelist
  kept := released.kept
  junk := released.junk

end

theorem trans (front : Released k pgdir s s' lo mid first)
    (back : Released k pgdir s' s'' mid hi second) (ordered : lo ≤ mid) (ordered' : mid ≤ hi) :
    Released k pgdir s s'' lo hi (first ++ second) where
  space := back.space
  tables := back.tables.trans front.tables
  entries b page := by
    rw [back.entries b page]
    by_cases later : mid ≤ b.toNat
    · have before : ¬ (lo ≤ b.toNat ∧ b.toNat < mid ∧ s.frameOf pgdir b ≠ none) := by omega
      rw [front.frameOf_outside page (.inr later), front.entries b page, if_neg before]
      by_cases inside : b.toNat < hi ∧ s.frameOf pgdir b ≠ none
      · rw [if_pos ⟨later, inside⟩, if_pos ⟨by omega, inside⟩]
      · rw [if_neg fun all => inside all.2, if_neg fun all => inside all.2]
    · rw [if_neg fun all => later all.1, front.entries b page]
      by_cases inside : lo ≤ b.toNat ∧ s.frameOf pgdir b ≠ none
      · rw [if_pos ⟨inside.1, by omega, inside.2⟩, if_pos ⟨inside.1, by omega, inside.2⟩]
      · rw [if_neg fun all => inside ⟨all.1, all.2.2⟩, if_neg fun all => inside ⟨all.1, all.2.2⟩]
  mapped v := by
    rw [List.mem_append, front.mapped v, back.mapped v]
    constructor
    · rintro (⟨b, page, low, high, frame⟩ | ⟨b, page, low, high, frame⟩)
      · exact ⟨b, page, low, Nat.lt_of_lt_of_le high ordered', frame⟩
      · rw [front.frameOf_outside page (.inr low)] at frame
        exact ⟨b, page, Nat.le_trans ordered low, high, frame⟩
    · rintro ⟨b, page, low, high, frame⟩
      by_cases early : b.toNat < mid
      · exact .inl ⟨b, page, low, early, frame⟩
      · rw [← front.frameOf_outside page (.inr (Nat.le_of_not_lt early))] at frame
        exact .inr ⟨b, page, Nat.le_of_not_lt early, high, frame⟩
  freelist := by
    rw [back.freelist, front.freelist, List.reverse_append, List.append_assoc]
  kept v other outside := by
    rw [List.mem_append, not_or] at other
    rw [back.kept v other.2, front.kept v other.1 outside]
    rw [Mem.Structural, front.tables]
    exact outside
  junk v member := by
    rcases List.mem_append.mp member with early | late
    · -- a page that is free is neither freed again nor a page of the directory
      have free : v ∈ s'.freelist := by
        rw [front.freelist]
        exact List.mem_append_left _ (List.mem_reverse.mpr early)
      have distinct := back.space.nodup
      rw [back.freelist, List.nodup_append] at distinct
      have once : v ∉ second := fun late =>
        distinct.2.2 v (List.mem_reverse.mpr late) v free rfl
      rw [back.kept v once fun holds => front.space.structural_not_free holds free]
      exact front.junk v early
    · exact back.junk v late

end Released

namespace Vm

variable {k : Image} {s s' : Mem} {pgdir oldsz newsz a v : Word} {fault : Fault → Prop}
  {post : Unit → Mem → Prop}

theorem wp_kfree (managed : Managed k v)
    (freed : ∀ s', (∀ w, w ≠ v → s'.page w = s.page w) → s'.freelist = v :: s.freelist →
      Junk (s'.page v) → post () s') : Wp (kfree k v) post fault s := by
  rw [kfree, if_pos managed]
  simp only [setPage, wp_bind, wp_get, wp_modify]
  refine freed _ (fun w differ => update_of_ne differ ..) rfl fun i later => ?_
  show update s.page v _ v i = _
  rw [update_self, if_neg later]

theorem released_page (space : Space k s pgdir) {pgtab : Word} (aligned : Aligned a)
    (user : a < kernbase) (there : s.tableAt pgdir (pdx a) = some pgtab)
    (mapped : s.frameOf pgdir a = some v)
    (kept : ∀ w, w ≠ v → s'.page w = (s.setEntry pgtab (ptx a) 0).page w)
    (freed : s'.freelist = v :: s.freelist) (junk : Junk (s'.page v)) :
    Released k pgdir s s' a.toNat (a.toNat + 4096) [v] := by
  obtain ⟨after, tables, entries⟩ := space.unmapFrame there (pdx_lt_iff.mpr user) mapped kept freed
  refine ⟨after, tables, ?_, ?_, freed, ?_, List.forall_mem_singleton.mpr junk⟩
  · intro b page
    rw [Mem.entry, entries]
    have indices : pdx b = pdx a ∧ ptx b = ptx a ↔ b = a :=
      ⟨fun both => eq_of_indices page aligned both.1 both.2, by rintro rfl; exact ⟨rfl, rfl⟩⟩
    have here : a.toNat ≤ b.toNat ∧ b.toNat < a.toNat + 4096 ∧ s.frameOf pgdir b ≠ none ↔
        b = a := by
      rw [aligned_iff] at aligned page
      constructor
      · rintro ⟨low, high, -⟩
        apply eq_of_toNat_eq
        omega
      · rintro rfl
        refine ⟨by omega, by omega, ?_⟩
        rw [mapped]
        rintro ⟨⟩
    simp only [indices, here]
    rfl
  · intro w
    rw [List.mem_singleton]
    constructor
    · rintro rfl
      exact ⟨a, aligned, Nat.le_refl _, by omega, mapped⟩
    · rintro ⟨b, page, low, high, frame⟩
      have same : b = a := by
        rw [aligned_iff] at aligned page
        apply eq_of_toNat_eq
        omega
      rw [same, mapped] at frame
      exact (Option.some.inj frame).symm
  · intro w other outside
    rw [kept w (fun same => other (List.mem_singleton.mpr same))]
    exact s.setEntry_page_of_ne _ _ fun same => outside (.inr ⟨_, same ▸ there⟩)

def pagesUpTo (a oldsz : Word) : Nat := (oldsz.toNat - a.toNat + 4095) / 4096

theorem pagesUpTo_next (more : a < oldsz) (small : a.toNat + 4096 < 2 ^ 32) :
    pagesUpTo a oldsz = pagesUpTo (a + pgsize) oldsz + 1 := by
  have below := lt_def.mp more
  rw [pagesUpTo, pagesUpTo, toNat_next small]
  omega

theorem unmapped_of_missing (missing : s.tableAt pgdir (pdx a) = none)
    (whole : a.toNat % 2 ^ 22 = 0) {b : Word} (low : a.toNat ≤ b.toNat)
    (high : b.toNat < a.toNat + 2 ^ 22) : s.frameOf pgdir b = none := by
  have same : pdx b = pdx a := by
    rw [Fin.ext_iff, pdx_val, pdx_val]
    omega
  rw [Mem.frameOf, Mem.entry, same, Mem.pte_of_missing missing, target_zero]

def tableSpan : Word := BitVec.ofNat 32 (4096 * 1024)

theorem toNat_skip (small : a.toNat ≤ 2 ^ 31 + 2 ^ 22) :
    (a + tableSpan).toNat = a.toNat + 2 ^ 22 := by
  rw [tableSpan, toNat_add, toNat_ofNat]
  omega

theorem pagesUpTo_skip (small : a.toNat ≤ 2 ^ 31 + 2 ^ 22) :
    pagesUpTo (a + tableSpan) oldsz = pagesUpTo a oldsz - 1024 := by
  rw [pagesUpTo, pagesUpTo, toNat_skip small]
  omega

theorem framesIn_missing {count : Nat} (missing : s.tableAt pgdir (pdx a) = none)
    (whole : a.toNat % 2 ^ 22 = 0) (small : a.toNat + 4096 * count ≤ 2 ^ 32) :
    framesIn s pgdir count a = framesIn s pgdir (count - 1024) (a + tableSpan) := by
  have aligned : Aligned a := by
    rw [aligned_iff]
    omega
  by_cases short : count ≤ 1024
  · have none := framesIn_skip count 0 aligned (fun b _ low high =>
      unmapped_of_missing missing whole low (by omega)) small
    rw [Nat.add_zero] at none
    rw [none, Nat.sub_eq_zero_of_le short, framesIn, framesIn]
  · have split : count = 1024 + (count - 1024) := by omega
    rw [split] at small
    have skipped := framesIn_skip 1024 (count - 1024) aligned (fun b _ low high =>
      unmapped_of_missing missing whole low (by omega)) small
    rw [← split] at skipped
    exact skipped

theorem wp_deallocRound {fuel : Nat} (space : Space k s pgdir) (aligned : Aligned a)
    (user : a < kernbase) (more : a < oldsz) (skip : s.tableAt pgdir (pdx a) = none →
      Wp (deallocLoop k pgdir oldsz fuel (a + tableSpan)) post fault s)
    (rest : s.tableAt pgdir (pdx a) ≠ none → ∀ s₁,
      Released k pgdir s s₁ a.toNat (a.toNat + 4096) (s.frameOf pgdir a).toList →
      Wp (deallocLoop k pgdir oldsz fuel (a + pgsize)) post fault s₁) :
    Wp (deallocLoop k pgdir oldsz (fuel + 1) a) post fault s := by
  have page := aligned_iff.mp aligned
  rw [deallocLoop, if_pos more, wp_bind, wp_walk]
  cases there : s.tableAt pgdir (pdx a) with
  | none =>
    have far : a + 1023 * pgsize + pgsize = a + tableSpan := by
      rw [BitVec.add_assoc]
      rfl
    rw [Option.map_none, far]
    exact skip there
  | some pgtab =>
    have entry : s.page pgtab (ptx a) = s.entry pgdir a := (Mem.pte_of_table there).symm
    have found : s.tableAt pgdir (pdx a) ≠ none := by
      rw [there]
      nofun
    simp only [Option.map_some, loadEntry, wp_bind, wp_get, wp_pure, entry]
    cases mapped : s.frameOf pgdir a with
    | none =>
      have absent : ¬ HasFlag pteP (s.entry pgdir a) := by
        intro present
        rw [Mem.frameOf, target, if_pos present] at mapped
        cases mapped
      rw [if_neg absent]
      refine rest found s ?_
      rw [mapped]
      refine .of_unmapped space fun b inside low high => ?_
      have same : b = a := by
        rw [aligned_iff] at inside
        apply eq_of_toNat_eq
        omega
      rw [same, mapped]
    | some v =>
      obtain ⟨present, names⟩ := target_eq_some_iff.mp mapped
      have managed := space.managed (Space.held_of_frameOf user mapped)
      have nonzero : pteAddr (s.entry pgdir a) ≠ 0 := by
        intro zero
        have bounds := managed.bounds
        rw [← names, zero] at bounds
        revert bounds
        decide
      rw [if_pos present, if_neg nonzero, names]
      simp only [wp_bind]
      refine wp_kfree managed fun s₁ others freed junk => ?_
      simp only [storeEntry, setPage, wp_bind, wp_get, wp_modify]
      have apart : pgtab ≠ v := by
        rintro rfl
        exact space.frame_not_structural (Space.held_of_frameOf user mapped) (.inr ⟨_, there⟩)
      refine rest found _ ?_
      rw [mapped]
      refine released_page space aligned user there mapped (fun w differ => ?_) freed ?_
      · by_cases table : w = pgtab
        · rw [table, Mem.setEntry_page_self]
          show update s₁.page pgtab _ pgtab = _
          rw [update_self, others pgtab apart]
        · rw [s.setEntry_page_of_ne _ _ table]
          show update s₁.page pgtab _ w = _
          rw [update_of_ne table, others w differ]
      · show Junk (update s₁.page pgtab _ v)
        rw [update_of_ne apart.symm]
        exact junk

theorem wp_deallocLoop (fuel : Nat) (space : Space k s pgdir) (aligned : Aligned a)
    (old : oldsz.toNat ≤ 2 ^ 31) (near : a.toNat ≤ 2 ^ 31 + 2 ^ 22)
    (start : a < oldsz → s.tableAt pgdir (pdx a) = none → a.toNat % 2 ^ 22 = 0)
    (enough : pagesUpTo a oldsz < fuel)
    (done : ∀ s', Released k pgdir s s' a.toNat (a.toNat + 4096 * pagesUpTo a oldsz)
      (framesIn s pgdir (pagesUpTo a oldsz) a) → post () s') :
    Wp (deallocLoop k pgdir oldsz fuel a) post fault s := by
  induction fuel generalizing s a with
  | zero => exact absurd enough (Nat.not_lt_zero _)
  | succ fuel ih =>
    by_cases more : a < oldsz
    · have below : a.toNat < oldsz.toNat := lt_def.mp more
      have user : a < kernbase := lt_def.mpr (Nat.lt_of_lt_of_le below old)
      have page := aligned_iff.mp aligned
      have next := toNat_next (a := a) (by omega)
      refine wp_deallocRound space aligned user more (fun missing => ?_)
        fun there s₁ released => ?_
      · have whole := start more missing
        have far : (a + tableSpan).toNat = a.toNat + 2 ^ 22 := toNat_skip near
        have count : pagesUpTo (a + tableSpan) oldsz = pagesUpTo a oldsz - 1024 :=
          pagesUpTo_skip near
        refine ih space ?_ (by rw [far]; omega) (fun _ _ => by rw [far]; omega)
          (by rw [count, pagesUpTo] at *; omega) fun s' later => done s' ?_
        · rw [aligned_iff, far]
          omega
        · rw [far, count, ← framesIn_missing missing whole (by rw [pagesUpTo]; omega)] at later
          refine later.bounds_congr fun b _ mapped => ?_
          have outside : ¬ (a.toNat ≤ b.toNat ∧ b.toNat < a.toNat + 2 ^ 22) := fun range =>
            mapped (unmapped_of_missing missing whole range.1 range.2)
          omega
      · have count : pagesUpTo a oldsz = pagesUpTo (a + pgsize) oldsz + 1 := by
          rw [pagesUpTo, pagesUpTo, next]
          omega
        refine ih released.space (aligned_next aligned) (by rw [next]; omega) ?_ (by omega)
          fun s' later => ?_
        · intro _ missing
          rw [released.tables] at missing
          by_contra middle
          have same : pdx (a + pgsize) = pdx a := by
            rw [next] at middle
            rw [Fin.ext_iff, pdx_val, pdx_val, next]
            clear next
            omega
          rw [same] at missing
          exact there missing
        · refine done s' ?_
          rw [next] at later
          have frames : framesIn s pgdir (pagesUpTo a oldsz) a = (s.frameOf pgdir a).toList ++
              framesIn s₁ pgdir (pagesUpTo (a + pgsize) oldsz) (a + pgsize) := by
            rw [count, framesIn, framesIn_congr _ ?_ (aligned_next aligned) ?_]
            · intro b inside low
              rw [next] at low
              exact (released.frameOf_outside inside (.inr low)).symm
            · rw [next, pagesUpTo, next]
              omega
          have hi : a.toNat + 4096 * pagesUpTo a oldsz =
              a.toNat + 4096 + 4096 * pagesUpTo (a + pgsize) oldsz := by
            rw [count, Nat.mul_succ, Nat.add_comm _ 4096, Nat.add_assoc]
          rw [hi, frames]
          exact released.trans later (Nat.le_add_right _ _) (Nat.le_add_right _ _)
    · have none : pagesUpTo a oldsz = 0 := by
        have above : oldsz.toNat ≤ a.toNat := Nat.le_of_not_lt more
        rw [pagesUpTo]
        omega
      rw [deallocLoop, if_neg more, wp_pure]
      refine done s ?_
      rw [none]
      exact .of_unmapped space fun b _ low high => by omega

/-- The loop of `deallocuvm` comes from one address to another over page tables that are missing,
and there it has reached the end or a page table. -/
structure Skips (s : Mem) (pgdir oldsz a a' : Word) : Prop where
  le : a.toNat ≤ a'.toNat
  offset : a'.toNat % 2 ^ 22 = a.toNat % 2 ^ 22
  near : a'.toNat ≤ 2 ^ 31 + 2 ^ 22
  missing : ∀ i, pdx a ≤ i → i < pdx a' → s.tableAt pgdir i = none
  stops : a' < oldsz → s.tableAt pgdir (pdx a') ≠ none

theorem wp_deallocLoop_any (fuel : Nat) (space : Space k s pgdir) (aligned : Aligned a)
    (old : oldsz.toNat ≤ 2 ^ 31) (near : a.toNat ≤ 2 ^ 31 + 2 ^ 22)
    (enough : pagesUpTo a oldsz < fuel)
    (done : ∀ s' a', Skips s pgdir oldsz a a' →
      Released k pgdir s s' a'.toNat (a'.toNat + 4096 * pagesUpTo a' oldsz)
        (framesIn s pgdir (pagesUpTo a' oldsz) a') → post () s') :
    Wp (deallocLoop k pgdir oldsz fuel a) post fault s := by
  induction fuel generalizing a with
  | zero => exact absurd enough (Nat.not_lt_zero _)
  | succ fuel ih =>
    by_cases skips : a < oldsz ∧ s.tableAt pgdir (pdx a) = none
    · obtain ⟨more, missing⟩ := skips
      have below : a.toNat < oldsz.toNat := lt_def.mp more
      have far : (a + tableSpan).toNat = a.toNat + 2 ^ 22 := toNat_skip near
      refine wp_deallocRound space aligned (lt_def.mpr (Nat.lt_of_lt_of_le below old)) more
        (fun _ => ?_) fun there => absurd missing there
      refine ih ?_ (by rw [far]; omega) (by rw [pagesUpTo_skip near, pagesUpTo] at *; omega)
        fun s' a' rest => done s' a' ?_
      · rw [aligned_iff] at aligned ⊢
        omega
      · refine ⟨by have := rest.le; omega, by rw [rest.offset, far]; omega, rest.near, ?_,
          rest.stops⟩
        intro i low high
        by_cases first : i = pdx a
        · rw [first, missing]
        · refine rest.missing i ?_ high
          rw [Fin.ext_iff, pdx_val] at first
          rw [Fin.le_def, pdx_val] at low ⊢
          omega
    · refine wp_deallocLoop _ space aligned old near
        (fun more missing => absurd ⟨more, missing⟩ skips) enough
        fun s' => done s' a ⟨Nat.le_refl _, rfl, near, fun i low high => ?_, ?_⟩
      · exact absurd low (Fin.not_le.mpr high)
      · exact fun more missing => skips ⟨more, missing⟩

/-- A mapped page that the loop of `deallocuvm` steps over when it starts at `a`: all page tables
from that of `a` to the one before that of the page are missing, and the page is nearer to the
start of its range than `a` is to the start of its own. -/
structure SteppedOver (s : Mem) (pgdir a oldsz b : Word) : Prop where
  aligned : Aligned b
  below : b < oldsz
  mapped : s.frameOf pgdir b ≠ none
  later : pdx a < pdx b
  nearer : b.toNat % 2 ^ 22 < a.toNat % 2 ^ 22
  missing : ∀ i, pdx a ≤ i → i < pdx b → s.tableAt pgdir i = none

namespace Skips

variable {a' b : Word} (skips : Skips s pgdir oldsz a a')
include skips

theorem stepped_iff (page : Aligned b) (below : b < oldsz) (mapped : s.frameOf pgdir b ≠ none) :
    a.toNat ≤ b.toNat ∧ b.toNat < a'.toNat ↔ SteppedOver s pgdir a oldsz b := by
  obtain ⟨le, offset, near, missing, stops⟩ := skips
  have there : s.tableAt pgdir (pdx b) ≠ none := by
    obtain ⟨pgtab, there⟩ := Mem.exists_table mapped
    rw [there]
    nofun
  have index : (pdx a).val = a.toNat / 2 ^ 22 := pdx_val
  have index' : (pdx a').val = a'.toNat / 2 ^ 22 := pdx_val
  have indexB : (pdx b).val = b.toNat / 2 ^ 22 := pdx_val
  constructor
  · rintro ⟨low, high⟩
    have last : ¬ pdx b < pdx a' := fun early =>
      there (missing _ (Fin.le_def.mpr (by omega)) early)
    rw [Fin.lt_def] at last
    refine ⟨page, below, mapped, Fin.lt_def.mpr (by omega), by omega, fun i first before => ?_⟩
    refine missing i first ?_
    rw [Fin.lt_def] at before ⊢
    omega
  · rintro ⟨-, -, -, later, nearer, before⟩
    have notEarly : ¬ pdx a' < pdx b := by
      intro early
      have absent := before _ (Fin.le_def.mpr (by omega)) early
      rw [Fin.lt_def] at early
      exact stops (lt_def.mpr (by have := lt_def.mp below; omega)) absent
    have notLate : ¬ pdx b < pdx a' := fun late => there (missing _ (Nat.le_of_lt later) late)
    rw [Fin.lt_def] at later notEarly notLate
    omega

theorem framesIn_eq (aligned : Aligned a) (old : oldsz.toNat ≤ 2 ^ 31)
    (clear : ∀ b, ¬ SteppedOver s pgdir a oldsz b) :
    framesIn s pgdir (pagesUpTo a' oldsz) a' = framesIn s pgdir (pagesUpTo a oldsz) a := by
  obtain ⟨le, offset, near, -, -⟩ := id skips
  have page := aligned_iff.mp aligned
  have unmapped : ∀ b, Aligned b → a.toNat ≤ b.toNat → b.toNat < a'.toNat → b < oldsz →
      s.frameOf pgdir b = none := by
    intro b page low high below
    by_contra mapped
    exact clear b ((skips.stepped_iff page below mapped).mp ⟨low, high⟩)
  by_cases inside : a' < oldsz
  · have below := lt_def.mp inside
    have count : pagesUpTo a oldsz = (a'.toNat - a.toNat) / 4096 + pagesUpTo a' oldsz := by
      rw [pagesUpTo, pagesUpTo]
      omega
    have target : a + ofNat 32 (4096 * ((a'.toNat - a.toNat) / 4096)) = a' := by
      apply eq_of_toNat_eq
      rw [toNat_add, toNat_ofNat]
      omega
    rw [count, framesIn_skip _ _ aligned, target]
    · intro b page' low high
      exact unmapped b page' low (by omega) (lt_def.mpr (by omega))
    · rw [← count, pagesUpTo]
      omega
  · have above : oldsz.toNat ≤ a'.toNat := Nat.le_of_not_lt inside
    have none : pagesUpTo a' oldsz = 0 := by
      rw [pagesUpTo]
      omega
    have skipped : framesIn s pgdir (pagesUpTo a oldsz + 0) a = framesIn s pgdir 0 _ :=
      framesIn_skip (pagesUpTo a oldsz) 0 aligned (fun b page' low high => ?_)
        (by rw [pagesUpTo]; omega)
    · rw [Nat.add_zero] at skipped
      rw [none, skipped, framesIn, framesIn]
    · rw [aligned_iff] at page'
      rw [pagesUpTo] at high
      exact unmapped b (aligned_iff.mpr page') low (by omega) (lt_def.mpr (by omega))

end Skips

def firstPage (sz : Word) : Nat := (sz.toNat + 4095) / 4096 * 4096

theorem pgRoundUp_firstPage (old : oldsz.toNat ≤ 2 ^ 31) (smaller : newsz < oldsz) :
    (pgRoundUp newsz).toNat = firstPage newsz ∧ Aligned (pgRoundUp newsz) ∧
      firstPage newsz ≤ 2 ^ 31 := by
  have below : newsz.toNat < oldsz.toNat := lt_def.mp smaller
  have lo : (pgRoundUp newsz).toNat = firstPage newsz := pgRoundUp_toNat (by omega)
  rw [aligned_iff, lo, firstPage]
  omega

theorem wp_deallocuvm_any {post : Word → Mem → Prop} (space : Space k s pgdir)
    (old : oldsz.toNat ≤ 2 ^ 31) (kept : oldsz ≤ newsz → post oldsz s)
    (done : newsz < oldsz → ∀ s' a', Skips s pgdir oldsz (pgRoundUp newsz) a' →
      Released k pgdir s s' a'.toNat oldsz.toNat (framesIn s pgdir (pagesUpTo a' oldsz) a') →
      post newsz s') :
    Wp (deallocuvm k pgdir oldsz newsz) post fault s := by
  rw [deallocuvm]
  by_cases smaller : newsz < oldsz
  · obtain ⟨lo, aligned, small⟩ := pgRoundUp_firstPage old smaller
    rw [if_neg (BitVec.not_le.mpr smaller)]
    simp only [wp_bind, wp_pure]
    refine wp_deallocLoop_any _ space aligned old (by omega) (by rw [pagesUpTo]; omega)
      fun s' a' skips released => done smaller s' a' skips ?_
    refine released.bounds_congr fun b page _ => ?_
    have offset := skips.offset
    rw [aligned_iff] at page aligned
    rw [pagesUpTo]
    omega
  · have larger := BitVec.not_lt.mp smaller
    rw [if_pos larger, wp_pure]
    exact kept larger

theorem released_of_skips {a' : Word} (skips : Skips s pgdir oldsz a a')
    (aligned : Aligned a) (old : oldsz.toNat ≤ 2 ^ 31)
    (clear : ∀ b, ¬ SteppedOver s pgdir a oldsz b)
    (released : Released k pgdir s s' a'.toNat oldsz.toNat
      (framesIn s pgdir (pagesUpTo a' oldsz) a')) :
    Released k pgdir s s' a.toNat oldsz.toNat (framesIn s pgdir (pagesUpTo a oldsz) a) := by
  rw [skips.framesIn_eq aligned old clear] at released
  refine released.bounds_congr fun b page mapped => ?_
  have le := skips.le
  by_cases below : b < oldsz
  · have outside := mt (skips.stepped_iff page below mapped).mp (clear b)
    omega
  · have above := mt lt_def.mpr below
    omega

theorem wp_deallocuvm {post : Word → Mem → Prop} (space : Space k s pgdir)
    (old : oldsz.toNat ≤ 2 ^ 31)
    (start : newsz < oldsz → s.tableAt pgdir (pdx (pgRoundUp newsz)) = none →
      firstPage newsz % 2 ^ 22 = 0)
    (kept : oldsz ≤ newsz → post oldsz s)
    (done : newsz < oldsz → ∀ s', Released k pgdir s s' (firstPage newsz) oldsz.toNat
      (framesIn s pgdir (pagesUpTo (pgRoundUp newsz) oldsz) (pgRoundUp newsz)) → post newsz s') :
    Wp (deallocuvm k pgdir oldsz newsz) post fault s := by
  refine wp_deallocuvm_any space old kept fun smaller s' a' skips released => ?_
  obtain ⟨lo, aligned, -⟩ := pgRoundUp_firstPage old smaller
  have clear : ∀ b, ¬ SteppedOver s pgdir (pgRoundUp newsz) oldsz b := by
    intro b stepped
    have whole := start smaller (stepped.missing _ (Fin.le_refl _) stepped.later)
    have nearer := stepped.nearer
    omega
  have whole := released_of_skips skips aligned old clear released
  rw [lo] at whole
  exact done smaller s' whole

/-- `deallocuvm` returns, and it frees the whole range exactly when no mapped page of the range is
stepped over: no page of the range is mapped afterwards, each frame that was mapped there is put on
the free list once, and the entries of other pages are unchanged. -/
theorem deallocuvm_frees (space : Space k s pgdir) (oldsz newsz : Word) (old : oldsz ≤ kernbase) :
    ∃ r s', deallocuvm k pgdir oldsz newsz s = .ok (r, s') ∧
      (((∀ b, Aligned b → firstPage newsz ≤ b.toNat → b < oldsz → s'.frameOf pgdir b = none) ∧
        (s'.freelist.Nodup ∧ s'.freelist = (framesIn s pgdir
          ((oldsz.toNat - firstPage newsz + 4095) / 4096) (pgRoundUp newsz)).reverse ++
            s.freelist) ∧
        ∀ b, Aligned b → ¬ (firstPage newsz ≤ b.toNat ∧ b < oldsz) →
          s'.entry pgdir b = s.entry pgdir b) ↔
        (newsz < oldsz → ∀ b, ¬ SteppedOver s pgdir (pgRoundUp newsz) oldsz b)) := by
  have small : oldsz.toNat ≤ 2 ^ 31 := BitVec.le_def.mp old
  apply Wp.returns
  refine wp_deallocuvm_any space small ?_ ?_
  · intro larger
    have above : oldsz.toNat ≤ firstPage newsz := by
      have le := BitVec.le_def.mp larger
      rw [firstPage]
      omega
    refine iff_of_true ⟨fun b _ low high => ?_, ⟨space.nodup, ?_⟩, fun b _ _ => rfl⟩
      fun smaller => absurd larger (BitVec.not_le.mpr smaller)
    · have high' := BitVec.lt_def.mp high
      omega
    · rw [show (oldsz.toNat - firstPage newsz + 4095) / 4096 = 0 by omega]
      rfl
  · intro smaller s' a' skips released
    obtain ⟨lo, aligned, -⟩ := pgRoundUp_firstPage small smaller
    constructor
    · rintro ⟨unmapped, -, -⟩ - b stepped
      -- the page is below the first address that is looked at, and stays mapped
      obtain ⟨low, high⟩ :=
        (skips.stepped_iff stepped.aligned stepped.below stepped.mapped).mpr stepped
      apply stepped.mapped
      rw [← released.frameOf_outside stepped.aligned (.inl high)]
      exact unmapped b stepped.aligned (by omega) stepped.below
    · intro clear
      have whole := released_of_skips skips aligned small (clear smaller) released
      rw [lo] at whole
      refine ⟨?_, ⟨whole.space.nodup, ?_⟩, ?_⟩
      · intro b page low high
        exact whole.frameOf_inside page low (BitVec.lt_def.mp high)
      · rw [whole.freelist, pagesUpTo, lo]
      · intro b page outside
        rw [whole.entries b page, if_neg fun all => outside ⟨all.1, BitVec.lt_def.mpr all.2.1⟩]

structure Freed (k : Image) (pgdir : Word) (s s' : Mem) : Prop where
  nodup : s'.freelist.Nodup
  pool : ∀ v ∈ s'.freelist, Managed k v
  free_iff : ∀ v, v ∈ s'.freelist ↔ v ∈ s.freelist ∨ ∃ r, s.held pgdir r = some v
  kept : ∀ v, v ∉ s'.freelist → s'.page v = s.page v
  junk : ∀ i j v, s.held pgdir (.frame i j) = some v → Junk (s'.page v)

theorem wp_freeTables {t : Mem} (indices : List PtIndex) (distinct : indices.Nodup)
    (space : Space k s pgdir) (root : t.page pgdir = s.page pgdir) (nodup : t.freelist.Nodup)
    (pool : ∀ v ∈ t.freelist, Managed k v)
    (busy : ∀ v, s.Structural pgdir v → v ∈ t.freelist → ∃ i, i ∉ indices ∧
      s.tableAt pgdir i = some v)
    (done : ∀ t', t'.freelist.Nodup → (∀ v ∈ t'.freelist, Managed k v) →
      (∀ v, v ∈ t'.freelist ↔ v ∈ t.freelist ∨ ∃ i ∈ indices, s.tableAt pgdir i = some v) →
      (∀ v, (∀ i ∈ indices, s.tableAt pgdir i ≠ some v) → t'.page v = t.page v) → post () t') :
    Wp (freeTables k pgdir indices) post fault t := by
  induction indices generalizing t with
  | nil =>
    refine done t nodup pool (fun v => ?_) fun _ _ => rfl
    simp
  | cons i rest ih =>
    obtain ⟨fresh, distinct'⟩ := List.nodup_cons.mp distinct
    simp only [freeTables, loadEntry, wp_bind, wp_get, wp_pure, root]
    cases there : s.tableAt pgdir i with
    | none =>
      have absent : ¬ HasFlag pteP (s.page pgdir i) := by
        intro present
        rw [Mem.tableAt, target, if_pos present] at there
        cases there
      rw [if_neg absent]
      refine ih distinct' root nodup pool ?_ fun t' nodup' pool' members kept =>
        done t' nodup' pool' (fun v => ?_) fun v outside =>
          kept v fun i' member => outside i' (List.mem_cons_of_mem _ member)
      · intro v structural member
        obtain ⟨i', outside, holds⟩ := busy v structural member
        exact ⟨i', fun inside => outside (List.mem_cons_of_mem _ inside), holds⟩
      · rw [members v, List.exists_mem_cons_iff, there]
        simp
    | some pgtab =>
      obtain ⟨present, names⟩ := target_eq_some_iff.mp there
      have managed : Managed k pgtab := space.managed (r := .table i) there
      have unfreed : pgtab ∉ t.freelist := by
        intro member
        obtain ⟨i', outside, holds⟩ := busy pgtab (.inr ⟨i, there⟩) member
        rw [space.table_injective holds there] at outside
        exact outside List.mem_cons_self
      rw [if_pos present, names, wp_bind]
      refine wp_kfree managed fun t₁ others freed _ => ?_
      refine ih distinct' ?_ ?_ ?_ ?_ fun t' nodup' pool' members kept =>
        done t' nodup' pool' (fun v => ?_) fun v outside => ?_
      · rw [others pgdir (space.table_ne_root there).symm, root]
      · rw [freed]
        exact List.nodup_cons.mpr ⟨unfreed, nodup⟩
      · rw [freed]
        exact List.forall_mem_cons.mpr ⟨managed, pool⟩
      · intro v structural member
        rw [freed] at member
        rcases List.mem_cons.mp member with rfl | old
        · exact ⟨i, fresh, there⟩
        · obtain ⟨i', outside, holds⟩ := busy v structural old
          exact ⟨i', fun inside => outside (List.mem_cons_of_mem _ inside), holds⟩
      · rw [members v, List.exists_mem_cons_iff, there, freed, List.mem_cons, Option.some.injEq,
          or_assoc, or_left_comm, eq_comm]
      · rw [kept v fun i' member => outside i' (List.mem_cons_of_mem _ member), others v]
        rintro rfl
        exact outside i List.mem_cons_self there

theorem wp_deallocAll {post : Word → Mem → Prop} (space : Space k s pgdir)
    (done : ∀ s' frames, Released k pgdir s s' 0 (2 ^ 31) frames → post 0 s') :
    Wp (deallocuvm k pgdir kernbase 0) post fault s := by
  have top : kernbase.toNat = 2 ^ 31 := rfl
  have lo : firstPage 0 = 0 := rfl
  refine wp_deallocuvm space (Nat.le_of_eq top) (fun _ _ => by rw [lo, Nat.zero_mod]) (fun le => ?_)
    fun _ s' released => ?_
  · rw [le_def, top] at le
    exact absurd le (by decide)
  · rw [lo, top] at released
    exact done s' _ released

theorem wp_freevm (space : Space k s pgdir) (done : ∀ s', Freed k pgdir s s' → post () s') :
    Wp (freevm k pgdir) post fault s := by
  have root : s.held pgdir .root = some pgdir := rfl
  have managed := space.managed root
  rw [freevm, if_neg managed.ne_zero]
  simp only [wp_bind]
  refine wp_deallocAll space fun s₁ frames released => ?_
  have distinct : (List.finRange npentries).Nodup := List.nodup_finRange _
  have every : ∀ i, i ∈ List.finRange npentries := List.mem_finRange
  generalize List.finRange npentries = indices at distinct every
  have after := released.space
  refine wp_freeTables indices distinct after (Eq.refl (s₁.page pgdir)) after.nodup after.pool
    (fun v holds member => absurd member (after.structural_not_free holds))
    fun s₂ nodup pool members kept => ?_
  have unfreed : pgdir ∉ s₂.freelist := by
    rw [members pgdir, not_or]
    refine ⟨after.structural_not_free (.inl rfl), ?_⟩
    rintro ⟨i, -, there⟩
    exact after.table_ne_root there rfl
  refine wp_kfree managed fun s' others freed _ => done s' ?_
  have free_iff : ∀ v, v ∈ s'.freelist ↔ v ∈ s.freelist ∨ ∃ r, s.held pgdir r = some v := by
    intro v
    rw [freed, List.mem_cons, members v, released.freelist, List.mem_append, List.mem_reverse,
      released.mapped v]
    constructor
    · rintro (rfl | (⟨b, page, -, high, frame⟩ | free) | ⟨i, -, there⟩)
      · exact .inr ⟨.root, rfl⟩
      · exact .inr ⟨_, Space.held_of_frameOf (lt_def.mpr high) frame⟩
      · exact .inl free
      · rw [released.tables] at there
        exact .inr ⟨.table i, there⟩
    · rintro (free | ⟨r, holds⟩)
      · exact .inr (.inl (.inr free))
      · cases r with
        | root => exact .inl (Option.some.inj holds).symm
        | table i =>
          refine .inr (.inr ⟨i, every i, ?_⟩)
          rw [released.tables]
          exact holds
        | frame i j =>
          obtain ⟨b, page, user, -, -, frame⟩ := Space.held_frame holds
          exact .inr (.inl (.inl ⟨b, page, Nat.zero_le _, lt_def.mp user, frame⟩))
  have later : ∀ v, ¬ s.Structural pgdir v → s'.page v = s₁.page v := by
    intro v outside
    rw [others v fun same => outside (.inl same), kept v fun i _ there => outside (.inr ⟨i, ?_⟩)]
    rw [← released.tables]
    exact there
  refine ⟨?_, ?_, free_iff, ?_, ?_⟩
  · rw [freed]
    exact List.nodup_cons.mpr ⟨unfreed, nodup⟩
  · rw [freed]
    exact List.forall_mem_cons.mpr ⟨managed, pool⟩
  · intro v busy
    have outside : ¬ s.Structural pgdir v := fun structural => by
      obtain ⟨r, holds, -⟩ := Space.held_structural structural
      exact busy ((free_iff v).mpr (.inr ⟨r, holds⟩))
    rw [later v outside, released.kept v ?_ outside]
    intro member
    obtain ⟨b, page, -, high, frame⟩ := (released.mapped v).mp member
    exact busy ((free_iff v).mpr (.inr ⟨_, Space.held_of_frameOf (lt_def.mpr high) frame⟩))
  · intro i j v holds
    obtain ⟨b, page, user, -, -, frame⟩ := Space.held_frame holds
    rw [later v (space.frame_not_structural holds)]
    exact released.junk v ((released.mapped v).mpr
      ⟨b, page, Nat.zero_le _, lt_def.mp user, frame⟩)

def smallImage : Image where
  data := 0x80102000
  endAddr := 0x80110000
  aligned := by decide
  text := by decide
  segment := by decide
  reach := by decide

@[irreducible]
def freePages (count : Nat) : List Word :=
  (List.range count).map fun n => 0x80300000 + BitVec.ofNat 32 (4096 * n)

section FreePages

variable {count n : Nat}

theorem toNat_freePage (inside : n < 40000) :
    (0x80300000 + ofNat 32 (4096 * n) : Word).toNat = 0x80300000 + 4096 * n := by
  rw [toNat_add, toNat_ofNat]
  show (0x80300000 + 4096 * n % 2 ^ 32) % 2 ^ 32 = _
  omega

theorem freePages_nodup (small : count ≤ 40000) : (freePages count).Nodup := by
  rw [freePages]
  refine List.Nodup.map_on (fun n first m second same => ?_) List.nodup_range
  have number := congrArg BitVec.toNat same
  rw [List.mem_range] at first second
  rw [toNat_freePage (by omega), toNat_freePage (by omega)] at number
  omega

theorem freePages_managed (small : count ≤ 40000) :
    ∀ v ∈ freePages count, Managed smallImage v ∧ 0x80300000 ≤ v.toNat := by
  intro v member
  rw [freePages] at member
  obtain ⟨n, inside, rfl⟩ := List.mem_map.mp member
  rw [List.mem_range] at inside
  have number := toNat_freePage (n := n) (by omega)
  refine ⟨⟨?_, ?_, ?_⟩, by omega⟩
  · rw [aligned_iff, number]
    omega
  · rw [le_def, number]
    show 0x80110000 ≤ _
    omega
  · unfold v2p kernbase physTop
    rw [lt_def, BitVec.toNat_sub, number]
    show (2 ^ 32 - 0x80000000 + _) % 2 ^ 32 < 0xE000000
    omega

theorem freePages_length : (freePages count).length = count := by
  rw [freePages, List.length_map, List.length_range]

end FreePages

def single (index : PtIndex) (freelist : List Word) : Mem where
  page v :=
    if v = 0x80200000 then fun i => if i = index then 0x00201007 else 0
    else if v = 0x80201000 then fun j => if j = 0 then 0x00202007 else 0
    else fun _ => 0
  freelist
  outages := []

section Single

variable {index : PtIndex} {freelist : List Word}

theorem single_tables (i : PtIndex) : (single index freelist).tableAt 0x80200000 i =
    if i = index then some 0x80201000 else none := by
  show target (if i = index then 0x00201007 else 0) = _
  split <;> decide

theorem single_pte (i j : PtIndex) : (single index freelist).pte 0x80200000 i j =
    if i = index ∧ j = 0 then 0x00202007 else 0 := by
  by_cases one : i = index
  · have there : (single index freelist).tableAt 0x80200000 i = some 0x80201000 := by
      rw [single_tables, if_pos one]
    rw [Mem.pte_of_table there]
    simp only [one, true_and]
    rfl
  · rw [Mem.pte_of_missing (by rw [single_tables, if_neg one]), if_neg fun both => one both.1]

theorem single_held {r : Mem.Role} {v : Word}
    (held : (single index freelist).held 0x80200000 r = some v) :
    r = .root ∧ v = 0x80200000 ∨ r = .table index ∧ v = 0x80201000 ∨
      r = .frame index 0 ∧ v = 0x80202000 := by
  cases r with
  | root => exact .inl ⟨rfl, (Option.some.inj held).symm⟩
  | table i =>
    rw [Mem.held, single_tables] at held
    split at held
    · rename_i one
      exact .inr (.inl ⟨by rw [one], (Option.some.inj held).symm⟩)
    · cases held
  | frame i j =>
    rw [Mem.held, Mem.frameAt, single_pte] at held
    by_cases here : i = index ∧ j = 0
    · obtain ⟨rfl, rfl⟩ := here
      by_cases user : i.val < 512
      · rw [if_pos user, if_pos ⟨rfl, rfl⟩] at held
        exact .inr (.inr ⟨rfl, (Option.some.inj held).symm⟩)
      · rw [if_neg user] at held
        cases held
    · rw [if_neg here, target_zero, ite_self] at held
      cases held

theorem single_space (nodup : freelist.Nodup)
    (managed : ∀ v ∈ freelist, Managed smallImage v ∧ 0x80300000 ≤ v.toNat) :
    Space smallImage (single index freelist) 0x80200000 where
  injective first second := by
    rcases single_held first with ⟨rfl, rfl⟩ | ⟨rfl, rfl⟩ | ⟨rfl, rfl⟩ <;>
    rcases single_held second with ⟨rfl, same⟩ | ⟨rfl, same⟩ | ⟨rfl, same⟩ <;>
    first | rfl | exact absurd same (by decide)
  managed held := by
    rcases single_held held with ⟨-, rfl⟩ | ⟨-, rfl⟩ | ⟨-, rfl⟩ <;> decide
  apart held member := by
    have high := (managed _ member).2
    rcases single_held held with ⟨-, rfl⟩ | ⟨-, rfl⟩ | ⟨-, rfl⟩ <;> exact absurd high (by decide)
  nodup := nodup
  pool v member := (managed v member).1

end Single

/-- A directory whose only user page is the one at 4 megabytes, and no free page. -/
def sparse : Mem := single 1 []

theorem sparse_space : Space smallImage sparse 0x80200000 :=
  single_space List.nodup_nil fun _ member => absurd member List.not_mem_nil

/-- The page at 4 megabytes is freed when the range starts there. -/
theorem deallocuvm_frees_sparse : ∃ r s',
    deallocuvm smallImage 0x80200000 0x401000 0x400000 sparse = .ok (r, s') ∧
      (∀ b, Aligned b → firstPage 0x400000 ≤ b.toNat → b < 0x401000 →
        s'.frameOf 0x80200000 b = none) ∧
      s'.freelist = [0x80202000] := by
  obtain ⟨r, s', returned, frees⟩ :=
    deallocuvm_frees sparse_space 0x401000 0x400000 (by decide)
  obtain ⟨unmapped, ⟨-, freed⟩, -⟩ :=
    frees.mpr fun _ b stepped => absurd stepped.nearer (Nat.not_lt_zero _)
  exact ⟨r, s', returned, unmapped, by rw [freed]; decide +kernel⟩

/-- The page at 4 megabytes is stepped over when the range starts in the middle of the addresses of
the page table before it, which is missing. -/
theorem deallocuvm_skips : ∃ s',
    deallocuvm smallImage 0x80200000 0x401000 0x1000 sparse = .ok (0x1000, s') ∧
      sparse.frameOf 0x80200000 0x400000 = some 0x80202000 ∧
      s'.frameOf 0x80200000 0x400000 = some 0x80202000 ∧ s'.freelist = [] := by
  have checked : Transition.ends (fun outcome => decide (outcome.1 = 0x1000 ∧
      outcome.2.frameOf 0x80200000 0x400000 = some 0x80202000 ∧ outcome.2.freelist = []))
      (deallocuvm smallImage 0x80200000 0x401000 0x1000 sparse) = true := by
    decide +kernel
  obtain ⟨⟨r, s'⟩, returned, facts⟩ := Transition.exists_of_ends checked
  obtain ⟨rfl, still, none⟩ := of_decide_eq_true facts
  exact ⟨s', returned, by decide +kernel, still, none⟩

end Vm

end Xv6
