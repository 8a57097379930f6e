import Xv6.Vm.Release

/-!
# Copying an address space

`copyuvm` makes the address space of a child. The kernel part is that of every page directory; each
page below the size of the parent is copied to a page of its own that was free, with the same flags,
and no page that was in use before is written.
-/

namespace Xv6

open BitVec (eq_of_toNat_eq lt_def getLsbD_one le_def)
open Program

namespace Vm

variable {k : Image} {s s' : Mem} {pgdir sz d i : Word} {fault : Fault → Prop}

/-- The pages below a size are mapped, and the pages of the directory are in use. -/
structure Readable (s : Mem) (pgdir sz : Word) : Prop where
  root : pgdir ∉ s.freelist
  tables : ∀ i pgtab, s.tableAt pgdir i = some pgtab → pgtab ∉ s.freelist
  frames : ∀ b v, Aligned b → b < kernbase → s.frameOf pgdir b = some v → v ∉ s.freelist
  mapped : ∀ b, Aligned b → b < sz → s.frameOf pgdir b ≠ none

structure Copying (k : Image) (s : Mem) (pgdir d : Word) (s' : Mem) (limit : Nat) : Prop where
  fresh : Fresh k s d s'
  copied : ∀ b, Aligned b → b.toNat < limit → ∃ v w, s.frameOf pgdir b = some v ∧
    s'.entry d b = v2p w ||| pteFlags (s.entry pgdir b) ||| pteP ∧ w ∈ s.freelist ∧
    s'.page w = s.page v
  rest : ∀ b, Aligned b → limit ≤ b.toNat → s'.entry d b = kernelEntry k b

theorem Readable.same (readable : Readable s pgdir sz) (fresh : Fresh k s d s') :
    s'.tableAt pgdir = s.tableAt pgdir ∧ s'.pte pgdir = s.pte pgdir := by
  have tables : s'.tableAt pgdir = s.tableAt pgdir := by
    funext i
    rw [Mem.tableAt, Mem.tableAt, fresh.kept pgdir readable.root]
  exact ⟨tables, (Mem.view_congr tables fun i pgtab there =>
    fresh.kept pgtab (readable.tables i pgtab there)).1⟩

theorem kernelEntry_kernbase (k : Image) : kernelEntry k kernbase = 3 := by
  have covered : Kmap.Covers ⟨kernbase, 0, extmem, pteW⟩ kernbase := by decide
  rw [kernelEntry, mapsEntry, kmap, List.find?_cons_of_pos (by simpa using covered)]
  rfl

theorem wp_remap {post : Int → Mem → Prop} {a pa perm : Word} (aligned : Aligned a)
    (mapped : s.frameOf pgdir a ≠ none) (remap : fault (.panic "remap")) :
    Wp (mappages pgdir a pgsize pa perm) post fault s := by
  obtain ⟨pgtab, there⟩ := Mem.exists_table mapped
  have present : HasFlag pteP (s.page pgtab (ptx a)) := by
    by_contra absent
    refine mapped ?_
    rw [Mem.frameOf, Mem.entry, Mem.pte_of_table there, target, if_neg absent]
  rw [mappages_page aligned, mappagesLoop, wp_bind, wp_walk_there there]
  simp only [loadEntry, wp_bind, wp_get, wp_pure, if_pos present]
  exact remap

theorem Copying.extend {s₁ s₂ : Mem} {v w : Word} {freelist : List Word} {outages : List Bool}
    (copying : Copying k s pgdir d s₁ i.toNat) (managed : ∀ v ∈ s.freelist, Managed k v)
    (aligned : Aligned i) (user : i < kernbase) (frame : s.frameOf pgdir i = some v)
    (pool : s₁.freelist = w :: freelist)
    (grown : Tabled k d ⟨Function.update s₁.page w (s.page v), freelist, outages⟩ s₂)
    (entries : ∀ b, Aligned b → s₂.entry d b =
      if b = i then v2p w ||| pteFlags (s.entry pgdir i) ||| pteP else s₁.entry d b) :
    Copying k s pgdir d s₂ (i.toNat + 4096) := by
  obtain ⟨taken, -, loose, busy⟩ := grown_take copying.fresh.space pool outages (s.page v)
  have member : w ∈ s.freelist := copying.fresh.pool (by
    rw [pool]
    exact List.mem_cons_self)
  refine ⟨copying.fresh.grow (taken.trans grown.toGrown) ?_, ?_, ?_⟩
  · intro b x page user' mapped
    rw [Mem.frameOf, entries b page] at mapped
    by_cases here : b = i
    · rw [if_pos here, target_entry (managed w member).1 pteFlags_isFlags] at mapped
      cases mapped
      exact member
    · rw [if_neg here] at mapped
      exact copying.fresh.held _ x (Space.held_of_frameOf user' mapped)
  · intro b page below
    by_cases here : b = i
    · refine ⟨v, w, by rw [here]; exact frame, by rw [entries b page, if_pos here, here], member,
        ?_⟩
      have outside : ¬ Mem.Structural ⟨Function.update s₁.page w (s.page v), freelist, outages⟩
          d w := by
        intro structural
        obtain ⟨r, holds, -⟩ := Space.held_structural structural
        exact loose r holds
      rw [grown.kept w busy outside]
      exact Function.update_self ..
    · have before : b.toNat < i.toNat := by
        have differ : b.toNat ≠ i.toNat := fun same => here (eq_of_toNat_eq same)
        rw [aligned_iff] at page aligned
        omega
      obtain ⟨v', w', frame', entry, member', same⟩ := copying.copied b page before
      refine ⟨v', w', frame', by rw [entries b page, if_neg here, entry], member', ?_⟩
      have mapped : s₁.frameOf d b = some w' := by
        rw [Mem.frameOf, entry, target_entry (managed w' member').1 pteFlags_isFlags]
      have held := Space.held_of_frameOf
        (lt_def.mpr (Nat.lt_trans before (lt_def.mp user))) mapped
      rw [(taken.trans grown.toGrown).kept w' (copying.fresh.space.apart held)
        (copying.fresh.space.frame_not_structural held), same]
  · intro b page above
    have differ : b ≠ i := by
      rintro rfl
      omega
    rw [entries b page, if_neg differ, copying.rest b page (by omega)]

theorem wp_copyLoop {post : Bool → Mem → Prop} (fuel : Nat) {s₁ : Mem}
    (readable : Readable s pgdir sz) (managed : ∀ v ∈ s.freelist, Managed k v)
    (aligned : Aligned i) (user : i.toNat ≤ 2 ^ 31) (near : i = 0 ∨ i.toNat < sz.toNat + 4096)
    (enough : pagesUpTo i sz < fuel) (copying : Copying k s pgdir d s₁ i.toNat)
    (remap : kernbase < sz → fault (.panic "remap"))
    (failed : ∀ s', Fresh k s d s' → ¬ s₁.Stocked d (pagesUpTo i sz) → post false s')
    (done : ∀ s', sz.toNat ≤ 2 ^ 31 → Copying k s pgdir d s' sz.toNat → post true s') :
    Wp (copyLoop pgdir d sz fuel i) post fault s₁ := by
  induction fuel generalizing s₁ i with
  | zero => exact absurd enough (Nat.not_lt_zero _)
  | succ fuel ih =>
    rw [copyLoop]
    by_cases more : i < sz
    · have below := lt_def.mp more
      obtain ⟨tables, entries⟩ := readable.same copying.fresh
      obtain ⟨v, frame⟩ := Option.ne_none_iff_exists'.mp (readable.mapped i aligned more)
      obtain ⟨pgtab, there⟩ := Mem.exists_table (readable.mapped i aligned more)
      obtain ⟨present, names⟩ := target_eq_some_iff.mp frame
      have entry : s₁.page pgtab (ptx i) = s.entry pgdir i := by
        rw [← Mem.pte_of_table (by rw [tables, there]), entries]
        rfl
      rw [if_pos more, wp_bind, wp_walk_there (by rw [tables, there])]
      simp only [loadEntry, wp_bind, wp_get, wp_pure, entry, if_pos present, names]
      apply wp_kalloc
      · intro outages refused _
        refine failed _ (copying.fresh.grow
          (grown_pool copying.fresh.space (List.suffix_refl _) outages) ?_) ?_
        · intro b x page user' mapped
          exact copying.fresh.held _ x (Space.held_of_frameOf user' mapped)
        · rintro ⟨none, stocked⟩
          rw [(refused none).2, List.length_nil, pagesUpTo] at stocked
          omega
      · intro w freelist outages pool quiet _
        obtain ⟨taken, pte, loose, busy⟩ :=
          grown_take copying.fresh.space pool outages (s₁.page v)
        have member : w ∈ s.freelist := copying.fresh.pool (by
          rw [pool]
          exact List.mem_cons_self)
        have kept : ∀ b, Mem.entry ⟨Function.update s₁.page w (s₁.page v), freelist, outages⟩ d b =
            s₁.entry d b := fun b => by
          rw [Mem.entry, pte]
          rfl
        simp only [setPage, wp_bind, wp_get, wp_modify]
        by_cases inside : i < kernbase
        · have kernel := copying.rest i aligned (Nat.le_refl _)
          have fewer := pagesUpTo_next more (by omega)
          have same : s₁.page v = s.page v :=
            copying.fresh.kept v (readable.frames i v aligned inside frame)
          refine wp_mapUser taken.space aligned inside ?_ pteFlags_isFlags (managed w member) loose
            busy (fun s₂ short grown pte' _ => ?_) fun s₂ grown mapped _ => ?_
          · rw [Mem.frameOf, kept, kernel, kernelEntry_user inside, target_zero]
          · rw [if_pos (by decide), wp_pure]
            refine failed s₂ (copying.fresh.grow (taken.trans grown.toGrown) ?_) ?_
            · intro b x page user' frame'
              rw [Mem.frameOf, Mem.entry, pte', pte] at frame'
              exact copying.fresh.held _ x (Space.held_of_frameOf user' frame')
            · intro stocked
              rw [fewer] at stocked
              have left := stocked_take copying.fresh.space pool quiet (s₁.page v) stocked
              exact short (left.mono (Nat.zero_le _))
          · have next := toNat_next (a := i) (by omega)
            rw [if_neg (by decide)]
            rw [same] at grown
            have extended := copying.extend managed aligned inside frame pool grown fun b page => by
              rw [mapped b page, kept]
            rw [← next] at extended
            refine ih (aligned_next aligned) ?_ (.inr ?_) ?_ extended fun s' fresh short => ?_
            · have inside' : i.toNat < 2 ^ 31 := lt_def.mp inside
              rw [aligned_iff] at aligned
              rw [next]
              omega
            · rw [next]
              omega
            · omega
            · refine failed s' fresh fun stocked => short ?_
              rw [fewer] at stocked
              exact grown.stock _ (stocked_take copying.fresh.space pool quiet _ stocked)
        · have top : i = kernbase := by
            apply eq_of_toNat_eq
            have outside : ¬ i.toNat < 2 ^ 31 := fun lower => inside (lt_def.mpr lower)
            show i.toNat = 2 ^ 31
            omega
          refine wp_remap aligned ?_ (remap (top ▸ more))
          rw [Mem.frameOf, kept, copying.rest i aligned (Nat.le_refl _), top, kernelEntry_kernbase]
          decide
    · have above := Nat.le_of_not_lt more
      rw [if_neg more, wp_pure]
      refine done s₁ (Nat.le_trans above user) ⟨copying.fresh,
        fun b page low => copying.copied b page (Nat.lt_of_lt_of_le low above), ?_⟩
      intro b page high
      refine copying.rest b page ?_
      rw [aligned_iff] at page aligned
      rcases near with rfl | near
      · exact Nat.zero_le _
      · omega

structure IsolatedCopy (k : Image) (s : Mem) (pgdir sz d : Word) (s' : Mem) : Prop where
  copied : ∀ b, Aligned b → b < sz → ∃ v w, s.frameOf pgdir b = some v ∧
    s'.frameOf d b = some w ∧ pteFlags (s'.entry d b) = pteFlags (s.entry pgdir b) ∧
    w ∈ s.freelist ∧ w ∉ s'.freelist ∧ s'.page w = s.page v
  apart : ∀ b c v w, Aligned b → Aligned c → b < kernbase → c < kernbase →
    s.frameOf pgdir b = some v → s'.frameOf d c = some w → v ≠ w
  distinct : ∀ b c w, Aligned b → Aligned c → b < kernbase → c < kernbase →
    s'.frameOf d b = some w → s'.frameOf d c = some w → b = c
  above : ∀ b, Aligned b → b < kernbase → sz ≤ b → s'.frameOf d b = none
  kernel : ∀ b, Aligned b → kernbase ≤ b → s'.entry d b = kernelEntry k b
  parent : (∀ v, v ∉ s.freelist → s'.page v = s.page v) ∧ s'.pte pgdir = s.pte pgdir

theorem pteFlags_entry {v e : Word} (aligned : Aligned v) (present : HasFlag pteP e) :
    pteFlags (v2p v ||| pteFlags e ||| pteP) = pteFlags e := by
  have low : v2p v &&& 0xFFF#32 = 0#32 := aligned.v2p
  have first : e.getLsbD 0 = true := by
    by_contra clear
    refine present ?_
    apply BitVec.eq_of_getLsbD_eq
    intro n _
    by_cases zero : n = 0
    · rw [zero, BitVec.getLsbD_and, Bool.eq_false_iff.mpr clear]
      rfl
    · simp [pteP, getLsbD_one, zero]
  have flags : pteFlags e ||| pteP = pteFlags e := by
    apply BitVec.eq_of_getLsbD_eq
    intro n _
    by_cases zero : n = 0
    · simp [pteFlags, zero, first]
    · simp [pteP, getLsbD_one, zero]
  have masked : pteFlags e &&& 0xFFF#32 = pteFlags e := by
    rw [pteFlags, BitVec.and_assoc, BitVec.and_self]
  show (v2p v ||| pteFlags e ||| pteP) &&& 0xFFF#32 = _
  rw [BitVec.or_assoc, flags, BitVec.and_comm, BitVec.and_or_distrib_left, BitVec.and_comm, low,
    BitVec.and_comm, masked, BitVec.zero_or]

theorem Copying.isolated (managed : ∀ v ∈ s.freelist, Managed k v) (readable : Readable s pgdir sz)
    (user : sz.toNat ≤ 2 ^ 31) (copying : Copying k s pgdir d s' sz.toNat) :
    IsolatedCopy k s pgdir sz d s' := by
  have fresh := copying.fresh
  have taken : ∀ b w, b < kernbase → s'.frameOf d b = some w → w ∈ s.freelist := fun b w inside
    frame => fresh.held _ w (Space.held_of_frameOf inside frame)
  refine ⟨?_, ?_, ?_, ?_, ?_, fresh.kept, (readable.same fresh).2⟩
  · intro b page below
    obtain ⟨v, w, frame, entry, member, same⟩ := copying.copied b page (lt_def.mp below)
    have inside : b < kernbase :=
      lt_def.mpr (Nat.lt_of_lt_of_le (lt_def.mp below) user)
    have mapped : s'.frameOf d b = some w := by
      rw [Mem.frameOf, entry, target_entry (managed w member).1 pteFlags_isFlags]
    refine ⟨v, w, frame, mapped, ?_, member, ?_, same⟩
    · rw [entry, pteFlags_entry (managed w member).1 (target_eq_some_iff.mp frame).1]
    · exact fresh.space.apart (Space.held_of_frameOf inside mapped)
  · rintro b c v w page page' inside inside' frame frame' rfl
    exact readable.frames b v page inside frame (taken c v inside' frame')
  · intro b c w page page' inside inside' frame frame'
    exact fresh.space.frameOf_injective page page' inside inside' frame frame'
  · intro b page inside above
    rw [Mem.frameOf, copying.rest b page (le_def.mp above), kernelEntry_user inside,
      target_zero]
  · intro b page above
    exact copying.rest b page (Nat.le_trans user (le_def.mp above))

/-- `copyuvm` makes an isolated equal copy. With a size in the user part it returns, and if it
returns without a directory then memory was short; a directory that it returns is such a copy. -/
theorem copyuvm_copies (nodup : s.freelist.Nodup) (managed : ∀ v ∈ s.freelist, Managed k v)
    (readable : Readable s pgdir sz) :
    (sz ≤ kernbase → ∃ r s', copyuvm k pgdir sz s = .ok (r, s') ∧
        (s.outages = [] → 1025 + pagesUpTo 0 sz ≤ s.freelist.length → r ≠ none)) ∧
      ∀ d s', copyuvm k pgdir sz s = .ok (some d, s') → IsolatedCopy k s pgdir sz d s' := by
  have known : Wp (copyuvm k pgdir sz)
      (fun r s' => (∀ d, r = some d → IsolatedCopy k s pgdir sz d s') ∧
        (s.outages = [] → 1025 + pagesUpTo 0 sz ≤ s.freelist.length → r ≠ none))
      (fun _ => kernbase < sz) s := by
    rw [copyuvm, wp_bind]
    refine wp_setupkvm nodup managed (fun s' short _ _ => ?_) fun d s₁ fresh stock kernel => ?_
    · refine ⟨by rintro _ ⟨⟩, fun none enough => ?_⟩
      exact absurd ⟨none, by omega⟩ short
    have start : Copying k s pgdir d s₁ (0 : Word).toNat :=
      ⟨fresh, fun b _ below => absurd below (Nat.not_lt_zero _), fun b page _ => kernel b page⟩
    simp only [wp_bind]
    refine wp_copyLoop _ readable managed (by decide) (by decide) (.inl rfl) ?_ start id
      (fun s' fresh' short => ?_) fun s' user copying => ?_
    · rw [pagesUpTo]
      show (sz.toNat - 0 + 4095) / 4096 < _
      omega
    · simp only [Bool.false_eq_true, if_false, wp_bind]
      refine wp_freevm fresh'.space fun s'' _ => ⟨by rintro _ ⟨⟩, fun none enough => ?_⟩
      exact absurd (stock _ none enough) short
    · simp only [if_true, wp_pure]
      refine ⟨fun d' same => ?_, fun _ _ => by rintro ⟨⟩⟩
      cases same
      exact copying.isolated managed readable user
  refine ⟨fun inside => ?_, fun d s' ran => (known.ok ran).1 d rfl⟩
  cases ran : copyuvm k pgdir sz s with
  | ok outcome => exact ⟨outcome.1, outcome.2, rfl, (known.ok ran).2⟩
  | error stopped => exact absurd (known.error ran) (BitVec.not_lt.mpr inside)

theorem Readable.of_space (space : Space k s pgdir)
    (mapped : ∀ b, Aligned b → b < sz → s.frameOf pgdir b ≠ none) : Readable s pgdir sz where
  root := space.apart (r := .root) rfl
  tables i _ there := space.apart (r := .table i) there
  frames _ _ _ user frame := space.apart (Space.held_of_frameOf user frame)
  mapped := mapped

def onePage : Mem := single 0 (freePages 2000)

theorem onePage_space : Space smallImage onePage 0x80200000 :=
  single_space (freePages_nodup (by decide)) (freePages_managed (by decide))

theorem onePage_readable : Readable onePage 0x80200000 0x1000 := by
  refine .of_space onePage_space fun b page low => ?_
  have zero : b = 0 := by
    rw [aligned_iff] at page
    have small : b.toNat < 4096 := lt_def.mp low
    apply eq_of_toNat_eq
    show b.toNat = 0
    omega
  have frame : onePage.frameOf 0x80200000 0 = some 0x80202000 := by
    rw [onePage, Mem.frameOf, Mem.entry, single_pte]
    decide
  rw [zero, frame]
  rintro ⟨⟩

/-- The address space of a process of one page is copied. -/
theorem copyuvm_copies_page : ∃ d s',
    copyuvm smallImage 0x80200000 0x1000 onePage = .ok (some d, s') ∧
      IsolatedCopy smallImage onePage 0x80200000 0x1000 d s' := by
  obtain ⟨returns, copies⟩ :=
    copyuvm_copies onePage_space.nodup onePage_space.pool onePage_readable
  obtain ⟨r, s', returned, plenty⟩ := returns (by decide)
  have length : onePage.freelist.length = 2000 := freePages_length
  have made := plenty rfl (by rw [length]; decide)
  obtain ⟨d, rfl⟩ := Option.ne_none_iff_exists'.mp made
  exact ⟨d, s', returned, copies d s' returned⟩

end Vm

end Xv6
