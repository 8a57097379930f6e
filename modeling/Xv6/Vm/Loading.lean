import Xv6.Vm.Copyout
import Xv6.Vm.Exec
import Xv6.Vm.Grow

/-!
# Loading a program

What `exec` does to memory while it fills a new page directory. The directory is made from free
pages, its user part maps the pages below the size, and segments and arguments are copied to the
frames behind user addresses; so no page that was in use is written.
-/

namespace Xv6

open Mem (entry userFrame frameOf userMemory)
open BitVec (le_def lt_def ofNat)
open Bytes (Byte getByte putBytes toBytes)
open ByteSpace (Memory)
open Program

namespace Vm

section Reading

variable {file : List Byte} {off n : Word}

theorem readi_length_le : (readi file off n).2.length ≤ n.toNat := by
  rw [readi]
  split
  · exact Nat.zero_le _
  · rename_i inside
    obtain ⟨-, forward⟩ := not_or.mp inside
    have sum : (off + n).toNat = off.toNat + n.toNat := by bv_omega
    refine Nat.le_trans (List.length_take_le _ _) ?_
    rw [sum]
    split <;> omega

theorem readi_full (full : (readi file off n).1 = n.toNat) :
    (readi file off n).2 = (file.drop off.toNat).take n.toNat ∧
      off.toNat + n.toNat ≤ file.length := by
  rw [readi] at full ⊢
  split at full
  · exact absurd full (by omega)
  · rename_i inside
    obtain ⟨start, forward⟩ := not_or.mp inside
    have sum : (off + n).toNat = off.toNat + n.toNat := by bv_omega
    rw [if_neg inside]
    simp only [sum] at full ⊢
    split at full
    · omega
    · rename_i short
      rw [if_neg short]
      exact ⟨rfl, by omega⟩

theorem readi_inside (inside : off.toNat + n.toNat ≤ file.length) (small : file.length < 2 ^ 32) :
    (readi file off n).1 = n.toNat := by
  have sum : (off + n).toNat = off.toNat + n.toNat := by
    rw [BitVec.toNat_add]
    omega
  have start : ¬ (file.length < off.toNat ∨ off + n < off) := by
    rw [lt_def, sum]
    omega
  rw [readi, if_neg start]
  simp only [sum]
  rw [if_neg (by omega)]

theorem readi_behind (behind : file.length ≤ off.toNat) (some : 0 < n.toNat) :
    (readi file off n).1 ≠ n.toNat ∧ (readi file off n).2 = [] := by
  rw [readi]
  split
  · exact ⟨by show (-1 : Int) ≠ _; omega, rfl⟩
  · rename_i inside
    obtain ⟨-, forward⟩ := not_or.mp inside
    have sum : (off + n).toNat = off.toNat + n.toNat := by bv_omega
    simp only [sum]
    rw [if_pos (by omega)]
    refine ⟨by omega, ?_⟩
    rw [Nat.sub_eq_zero_of_le behind]
    rfl

end Reading

theorem kernelEntry_pteU (k : Image) {b : Word} (page : Aligned b) :
    ¬ HasFlag pteU (kernelEntry k b) := by
  rw [kernelEntry, mapsEntry]
  cases found : (kmap k).find? fun m => m.Covers b with
  | none => exact (by decide : ¬ HasFlag pteU 0)
  | some m =>
    have member := List.mem_of_find?_eq_some found
    have starts := aligned_iff.mp (kmap_whole k m member).aligned
    have data := (data_bounds k).1
    have last := aligned_iff.mp page
    have flags : Aligned m.physStart ∧ ¬ HasFlag pteU m.perm := by
      simp only [kmap, List.mem_cons, List.not_mem_nil, or_false] at member
      rcases member with rfl | rfl | rfl | rfl
      · decide
      · exact ⟨(by decide : Aligned (v2p kernlink)), (by decide : ¬ HasFlag pteU 0)⟩
      · exact ⟨k.aligned.v2p, (by decide : ¬ HasFlag pteU pteW)⟩
      · decide
    have first := aligned_iff.mp flags.1
    have aligned : Aligned (m.physStart + (b - m.virt)) := by
      rw [aligned_iff]
      bv_omega
    show ¬ HasFlag pteU (m.entry b)
    rw [Kmap.entry, hasFlag_pteU_entry aligned]
    exact flags.2

structure Filling (k : Image) (s : Mem) (d sz : Word) (s' : Mem) : Prop where
  fresh : Fresh k s d s'
  maps : Maps s' d (firstPage sz)
  kernel : ∀ b, Aligned b → kernbase ≤ b → s'.entry d b = kernelEntry k b

def AllUser (s : Mem) (d : Word) : Prop :=
  ∀ b, Aligned b → b < kernbase → s.frameOf d b ≠ none → HasFlag pteU (s.entry d b)

variable {k : Image} {s s₁ s₂ : Mem} {d sz newsz va a v : Word} {bytes : List Byte}
  {fault : Fault → Prop}

theorem entry_page (s : Mem) (d a : Word) : s.entry d a = s.entry d (pgRoundDown a) := by
  obtain ⟨directory, table⟩ := Mem.indices_congr (a := a) (b := pgRoundDown a)
    pgRoundDown_aligned.pgRoundDown.symm
  rw [entry, entry, directory, table]

theorem pgRoundDown_lt_iff : pgRoundDown a < kernbase ↔ a < kernbase := by
  rw [lt_def, lt_def, pgRoundDown_toNat]
  show _ < 2 ^ 31 ↔ a.toNat < 2 ^ 31
  omega

theorem getByte_zero (position : Nat) : getByte (fun _ => 0 : Page) position = 0 := by
  rw [getByte]
  split
  · exact BitVec.extractLsb'_zero
  · rfl

namespace Filling

theorem user_only (filling : Filling k s d sz s₁) (frame : s₁.userFrame d a = some v) :
    a < kernbase ∧ s₁.frameOf d a = some v := by
  rw [userFrame] at frame
  split at frame
  · rename_i user
    refine ⟨?_, frame⟩
    by_contra above
    rw [entry_page, filling.kernel _ pgRoundDown_aligned
      (BitVec.not_lt.mp fun below => above (pgRoundDown_lt_iff.mp below))] at user
    exact kernelEntry_pteU k pgRoundDown_aligned user
  · cases frame

theorem closed (filling : Filling k s d sz s₁) : s₁.Private d := by
  refine filling.fresh.space.closed fun b above user => ?_
  rw [entry_page, filling.kernel _ pgRoundDown_aligned
    (BitVec.not_lt.mp fun below => BitVec.not_lt.mpr above (pgRoundDown_lt_iff.mp below))] at user
  exact kernelEntry_pteU k pgRoundDown_aligned user

theorem copied (filling : Filling k s d sz s₁) (copied : s₁.Copied d va bytes s₂) :
    Filling k s d sz s₂ := by
  have fresh := filling.fresh
  have taken : ∀ a v, s₁.userFrame d a = some v → v ∈ s.freelist := by
    intro a v frame
    obtain ⟨user, mapped⟩ := filling.user_only frame
    exact fresh.held _ v (Space.held_of_frameOf user mapped)
  have held : s₂.held d = s₁.held d := by
    funext role
    cases role <;> simp only [Mem.held, Mem.frameAt, copied.tables, copied.entries]
  refine ⟨⟨fresh.space.of_held held copied.freelist, by rw [copied.freelist]; exact fresh.pool,
    ?_, ?_⟩, ?_, ?_⟩
  · rw [held]
    exact fresh.held
  · intro v busy
    rw [copied.kept v fun n inside frame => busy (taken _ v frame), fresh.kept v busy]
  · intro b page user
    rw [frameOf, entry, copied.entries]
    exact filling.maps b page user
  · intro b page above
    rw [entry, copied.entries]
    exact filling.kernel b page above

theorem userFrame_eq (filling : Filling k s d sz s₁) (all : AllUser s₁ d) (below : a < sz)
    (small : sz < kernbase) : s₁.userFrame d a = s₁.frameOf d a ∧ s₁.frameOf d a ≠ none := by
  have number := lt_def.mp below
  have user : pgRoundDown a < kernbase := pgRoundDown_lt_iff.mpr (BitVec.lt_trans below small)
  have mapped : s₁.frameOf d (pgRoundDown a) ≠ none := by
    refine (filling.maps _ pgRoundDown_aligned user).mpr ?_
    rw [pgRoundDown_toNat, firstPage]
    omega
  have flag := all _ pgRoundDown_aligned user mapped
  rw [← entry_page] at flag
  rw [frameOf, ← entry_page] at mapped
  exact ⟨by rw [userFrame, if_pos flag], mapped⟩

theorem userFrame_none (filling : Filling k s d sz s₁) (above : firstPage sz ≤ a.toNat) :
    s₁.userFrame d a = none := by
  cases frame : s₁.userFrame d a with
  | none => rfl
  | some v =>
    obtain ⟨user, mapped⟩ := filling.user_only frame
    have below := (filling.maps (pgRoundDown a) pgRoundDown_aligned
      (pgRoundDown_lt_iff.mpr user)).mp (by
        rw [frameOf, ← entry_page, ← frameOf, mapped]
        rintro ⟨⟩)
    rw [pgRoundDown_toNat] at below
    rw [firstPage] at above below
    omega

theorem allocated (filling : Filling k s d sz s₁) (all : AllUser s₁ d) (le : sz ≤ newsz)
    (small : newsz < kernbase)
    (allocated : Allocated k d s₁ s₂ (firstPage sz) newsz.toNat) :
    Filling k s d newsz s₂ ∧ AllUser s₂ d ∧ s₂.userMemory d = s₁.userMemory d := by
  have le' := le_def.mp le
  have small' : newsz.toNat < 2 ^ 31 := lt_def.mp small
  have fresh := filling.fresh
  -- a user page is in the new range, or its entry is the old one
  have cases : ∀ b, Aligned b → b < kernbase → s₂.frameOf d b ≠ none →
      (firstPage sz ≤ b.toNat ∧ ∃ v ∈ s₁.freelist, s₂.frameOf d b = some v ∧
        HasFlag pteU (s₂.entry d b) ∧ s₂.page v = fun _ => 0) ∨
      b.toNat < firstPage sz ∧ s₂.entry d b = s₁.entry d b := by
    intro b page user mapped
    by_cases inside : firstPage sz ≤ b.toNat ∧ b.toNat < newsz.toNat
    · obtain ⟨v, member, entry, zero⟩ := allocated.fresh b page inside.1 inside.2
      have aligned := (fresh.space.pool v member).1
      refine .inl ⟨inside.1, v, member, ?_, ?_, zero⟩
      · rw [frameOf, entry, target_entry aligned userFlags]
      · rw [entry, hasFlag_pteU_entry aligned.v2p]
        decide
    · have old := allocated.others b page inside
      refine .inr ⟨?_, old⟩
      rw [frameOf, old] at mapped
      exact (filling.maps b page user).mp mapped
  have user : AllUser s₂ d := by
    intro b page low mapped
    rcases cases b page low mapped with ⟨-, v, -, -, flag, -⟩ | ⟨-, old⟩
    · exact flag
    · rw [frameOf, old] at mapped
      rw [old]
      exact all b page low mapped
  have filling' : Filling k s d newsz s₂ := by
    refine ⟨fresh.grow allocated.grown ?_, ?_, ?_⟩
    · intro b v page low mapped
      rcases cases b page low (by rw [mapped]; rintro ⟨⟩) with ⟨-, w, member, frame, -⟩ | ⟨-, old⟩
      · rw [mapped] at frame
        cases frame
        exact fresh.pool member
      · rw [frameOf, old] at mapped
        exact fresh.held _ v (Space.held_of_frameOf low mapped)
    · have limit : Maps s₂ d (max (firstPage sz) newsz.toNat) :=
        allocated.maps fresh.space filling.maps
      intro b page low
      rw [limit b page low, lt_firstPage_iff page]
      have old := lt_firstPage_iff page sz
      omega
    · intro b page above
      have high : 2 ^ 31 ≤ b.toNat := le_def.mp above
      rw [allocated.others b page (by omega), filling.kernel b page above]
  refine ⟨filling', user, ?_⟩
  funext a
  have rounded := pgRoundDown_toNat (a := a)
  by_cases low : (pgRoundDown a).toNat < firstPage sz
  · have same : s₂.entry d a = s₁.entry d a := by
      rw [entry_page, allocated.others _ pgRoundDown_aligned (by omega), ← entry_page]
    have frames : s₂.userFrame d a = s₁.userFrame d a := by
      rw [userFrame, userFrame, frameOf, frameOf, same]
    rw [userMemory, userMemory, frames]
    cases frame : s₁.userFrame d a with
    | none => rfl
    | some v =>
      obtain ⟨inside, mapped⟩ := filling.user_only frame
      have held := Space.held_of_frameOf inside mapped
      show getByte (s₂.page v) _ = getByte (s₁.page v) _
      rw [allocated.grown.kept v (fresh.space.apart held) (fresh.space.frame_not_structural held)]
  · have unseen : s₁.userFrame d a = none := filling.userFrame_none (by omega)
    rw [userMemory, userMemory, unseen]
    cases frame : s₂.userFrame d a with
    | none => rfl
    | some v =>
      obtain ⟨inside, mapped⟩ := filling'.user_only frame
      rw [frameOf, entry_page, ← frameOf] at mapped
      rcases cases _ pgRoundDown_aligned (pgRoundDown_lt_iff.mpr inside)
        (by rw [mapped]; rintro ⟨⟩) with
        ⟨-, w, -, frame', -, zero⟩ | ⟨low', -⟩
      · rw [mapped] at frame'
        cases frame'
        show getByte (s₂.page v) _ = 0
        rw [zero, getByte_zero]
      · exact absurd low' low

end Filling

theorem partSize_toNat {i : Word} (inside : i < sz) :
    (if sz - i < pgsize then sz - i else pgsize).toNat = min 4096 (sz.toNat - i.toNat) := by
  have below := lt_def.mp inside
  have distance : (sz - i).toNat = sz.toNat - i.toNat := by bv_omega
  split
  · rename_i short
    have less : (sz - i).toNat < 4096 := lt_def.mp short
    omega
  · rename_i long
    have more : ¬ (sz - i).toNat < 4096 := fun less => long (lt_def.mpr less)
    show 4096 = _
    omega

variable {addr offset i : Word} {file : List Byte}

theorem loadLoop_end {fuel : Nat} (ends : ¬ i < sz) (enough : 0 < fuel) :
    loadLoop d addr file offset sz fuel i = pure 0 := by
  obtain ⟨fuel, rfl⟩ := Nat.exists_eq_succ_of_ne_zero (Nat.ne_of_gt enough)
  rw [loadLoop]
  exact if_neg ends

theorem wp_loadLoop {post : Int → Mem → Prop} (reach : Word) (fuel : Nat) (closed : s.Private d)
    (aligned : Aligned addr) (page : Aligned i) (fits : reach.toNat ≤ 2 ^ 31)
    (small : file.length < 2 ^ 32) (start : i = 0 ∨ offset.toNat + i.toNat ≤ file.length)
    (more : i.toNat ≤ reach.toNat) (part : reach.toNat ≤ sz.toNat)
    (whole : reach = sz ∨ Aligned reach) (enough : pagesUpTo i sz < fuel)
    (accessible : ∀ n, n < reach.toNat → s.userFrame d (addr + ofNat 32 n) ≠ none)
    (cut : ∀ bytes s', s.Copied d (addr + i) bytes s' → bytes.length ≤ reach.toNat - i.toNat →
      i < reach → file.length < offset.toNat + reach.toNat → post (-1) s')
    (onwards : ∀ bytes s' fuel i', s.Copied d (addr + i) bytes s' →
      bytes = (file.drop (offset.toNat + i.toNat)).take (reach.toNat - i.toNat) →
      (i < reach → offset.toNat + reach.toNat ≤ file.length) → 0 < fuel →
      (i' = reach ∨ reach = sz ∧ ¬ i' < sz) →
      Wp (loadLoop d addr file offset sz fuel i') post fault s') :
    Wp (loadLoop d addr file offset sz fuel i) post fault s := by
  induction fuel generalizing s i with
  | zero => exact absurd enough (Nat.not_lt_zero _)
  | succ fuel ih =>
    by_cases inside : i < reach
    · have below := lt_def.mp inside
      have inside' : i < sz := lt_def.mpr (Nat.lt_of_lt_of_le below part)
      have frame := accessible i.toNat below
      rw [BitVec.ofNat_toNat, BitVec.setWidth_eq] at frame
      obtain ⟨v, frame⟩ := Option.ne_none_iff_exists'.mp frame
      obtain ⟨pgtab, there⟩ := Option.ne_none_iff_exists'.mp
        (table_of_userFrame (by rw [frame]; nofun))
      have names : p2v (pteAddr (s.page pgtab (ptx (addr + i)))) = v := by
        rw [← Mem.pte_of_table there]
        rw [userFrame] at frame
        split at frame
        · exact (target_eq_some_iff.mp frame).2
        · cases frame
      have sum : (offset + i).toNat = offset.toNat + i.toNat := by
        rcases start with rfl | start
        · simp
        · bv_omega
      have page' := aligned_iff.mp page
      have first : (addr + i).toNat % 4096 = 0 := by
        rw [aligned_iff] at aligned
        bv_omega
      have size := partSize_toNat inside'
      have next := toNat_next (a := i) (by omega)
      -- a round does not go beyond the accessible addresses
      have within : i.toNat + min 4096 (sz.toNat - i.toNat) ≤ reach.toNat := by
        rcases whole with rfl | pages
        · omega
        · have last := aligned_iff.mp pages
          omega
      rw [loadLoop, if_pos inside', wp_bind, wp_walk_there there]
      simp only [loadEntry, setPage, wp_bind, wp_get, wp_pure, wp_modify, names]
      generalize (if sz - i < pgsize then sz - i else pgsize) = n at size ⊢
      have length : (readi file (offset + i) n).2.length ≤ n.toNat := readi_length_le
      have copied := Mem.Copied.page closed frame (readi file (offset + i) n).2 (by omega)
      rw [first] at copied
      show Wp _ _ _ (s.putPage v 0 (readi file (offset + i) n).2)
      by_cases full : (readi file (offset + i) n).1 = n.toNat
      · obtain ⟨taken, room⟩ := readi_full full
        have count : (readi file (offset + i) n).2.length = n.toNat := by
          rw [taken, List.length_take, List.length_drop]
          omega
        rw [sum] at taken room
        rw [if_pos full]
        by_cases last : (i + pgsize).toNat ≤ reach.toNat
        · have most : n.toNat = 4096 := by omega
          have adjacent : addr + (i + pgsize) =
              addr + i + ofNat 32 (readi file (offset + i) n).2.length := by
            rw [count, most, BitVec.add_assoc]
            rfl
          refine ih (copied.closed closed) (aligned_next page) (.inr (by omega)) last ?_ ?_ ?_ ?_
          · have fewer := pagesUpTo_next inside' (by omega)
            omega
          · rw [copied.userFrame]
            exact accessible
          · intro bytes s' rest short less cutoff
            refine cut _ s' (copied.append rest adjacent (by omega)) ?_ inside cutoff
            rw [List.length_append]
            omega
          · intro bytes s' fuel' i' rest taken' inFile some ends
            have short : bytes.length ≤ reach.toNat - (i + pgsize).toNat := by
              rw [taken']
              exact List.length_take_le _ _
            refine onwards _ s' fuel' i' (copied.append rest adjacent (by omega)) ?_
              (fun _ => ?_) some ends
            · have total : 4096 + (reach.toNat - (i.toNat + 4096)) = reach.toNat - i.toNat := by
                omega
              rw [taken, taken', next, most, ← Nat.add_assoc, ← total]
              generalize offset.toNat + i.toNat = first
              rw [← List.drop_drop, ← List.take_add]
            · by_cases again : i + pgsize < reach
              · exact inFile again
              · have above := Nat.le_of_not_lt fun less => again (lt_def.mpr less)
                omega
        · -- the last page is not whole, so that all of the segment is accessible
          have all : reach = sz := by
            refine whole.resolve_right fun pages => last ?_
            have whole' := aligned_iff.mp pages
            omega
          refine onwards _ _ fuel (i + pgsize) copied ?_ (fun _ => ?_) ?_ (.inr ⟨all, ?_⟩)
          · have total : n.toNat = reach.toNat - i.toNat := by
              rw [all]
              omega
            rw [taken, total]
          · rw [all]
            omega
          · rw [pagesUpTo] at enough
            omega
          · rw [← all]
            exact fun less => last (Nat.le_of_lt (lt_def.mp less))
      · rw [if_neg full]
        refine cut _ _ copied (by omega) inside (Nat.lt_of_not_le fun inFile => full ?_)
        exact readi_inside (by omega) small
    · have ends : i = reach := by
        have above := Nat.le_of_not_lt inside
        exact BitVec.eq_of_toNat_eq (Nat.le_antisymm more above)
      refine onwards [] s (fuel + 1) i (.refl ..) ?_ (fun less => absurd less inside)
        (Nat.succ_pos _) (.inl ends)
      rw [ends, Nat.sub_self]
      rfl

theorem wp_loadLoop_beyond {post : Int → Mem → Prop} {fuel : Nat} (inside : i < sz)
    (enough : 0 < fuel)
    (absent : s.tableAt d (pdx (addr + i)) = none →
      fault (.panic "loaduvm: address should exist"))
    (empty : s.tableAt d (pdx (addr + i)) ≠ none → file.length ≤ (offset + i).toNat → post (-1) s)
    (strays : s.tableAt d (pdx (addr + i)) ≠ none → (offset + i).toNat < file.length →
      (∀ r s', post r s') ∧ ∀ stopped, fault stopped) :
    Wp (loadLoop d addr file offset sz fuel i) post fault s := by
  obtain ⟨fuel, rfl⟩ := Nat.exists_eq_succ_of_ne_zero (Nat.ne_of_gt enough)
  rw [loadLoop, if_pos inside, wp_bind, wp_walk]
  cases there : s.tableAt d (pdx (addr + i)) with
  | none => exact absent there
  | some pgtab =>
    have table : s.tableAt d (pdx (addr + i)) ≠ none := by
      rw [there]
      nofun
    by_cases behind : file.length ≤ (offset + i).toNat
    · have size := partSize_toNat inside
      have below := lt_def.mp inside
      obtain ⟨short, nothing⟩ := readi_behind behind
        (n := if sz - i < pgsize then sz - i else pgsize) (by omega)
      simp only [Option.map_some, loadEntry, setPage, wp_bind, wp_get, wp_pure, wp_modify, nothing]
      rw [if_neg short]
      show post (-1) (s.putPage _ 0 [])
      rw [Mem.putPage_nil]
      exact empty table behind
    · obtain ⟨all, any⟩ := strays table (Nat.lt_of_not_le behind)
      exact wp_of_forall (fun r s' _ => all r s') fun stopped _ => any stopped

theorem Fresh.undone (fresh : Fresh k s d s₁) (undone : Undone k d s₁ s₂) : Fresh k s d s₂ := by
  refine fresh.later undone.space undone.pool undone.structural undone.kept
    fun b v page user mapped => ?_
  rw [undone.frames b page user] at mapped
  exact fresh.held _ v (Space.held_of_frameOf user mapped)

theorem Filling.round (filling : Filling k s d sz s₁) (small : sz < kernbase) :
    Filling k s d (pgRoundUp sz) s₁ := by
  have limit : sz.toNat < 2 ^ 31 := lt_def.mp small
  have rounded : (pgRoundUp sz).toNat = firstPage sz := pgRoundUp_toNat (by omega)
  have same : firstPage (pgRoundUp sz) = firstPage sz := by
    rw [firstPage, rounded, firstPage]
    omega
  exact ⟨filling.fresh, by rw [same]; exact filling.maps, filling.kernel⟩

end Vm

end Xv6
