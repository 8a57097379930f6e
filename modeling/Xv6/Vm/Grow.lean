import Xv6.Vm.Release

/-!
# Growing and shrinking a process

`allocuvm` and `growproc`. `allocuvm` does not look at the result of `mappages`: where no page
could be had for a page table, it goes on as if the user page were mapped. If that does not
happen, it maps all pages of the range to fresh pages of zeros or leaves the mapped pages as they
were. `growproc` uses it and `deallocuvm`, for which zero is a size, a failure code and the result
of a sum that wraps.
-/

namespace Xv6

open Mem (frameOf entry)
open BitVec (lt_def le_def toInt_eq_toNat_cond)
open Program

namespace Vm

/-- The pages from address `lo` up to `hi` were mapped to fresh pages of zeros, or were left
unmapped. -/
structure Attempted (k : Image) (pgdir : Word) (s s' : Mem) (lo hi : Nat) : Prop where
  grown : Grown k pgdir s s'
  fresh : ∀ b, Aligned b → lo ≤ b.toNat → b.toNat < hi → s'.frameOf pgdir b ≠ none →
    ∃ v ∈ s.freelist,
      s'.entry pgdir b = v2p v ||| (pteW ||| pteU) ||| pteP ∧ s'.page v = fun _ => 0
  others : ∀ b, Aligned b → ¬ (lo ≤ b.toNat ∧ b.toNat < hi) →
    s'.entry pgdir b = s.entry pgdir b

structure Allocated (k : Image) (pgdir : Word) (s s' : Mem) (lo hi : Nat) : Prop where
  grown : Grown k pgdir s s'
  fresh : ∀ b, Aligned b → lo ≤ b.toNat → b.toNat < hi → ∃ v ∈ s.freelist,
    s'.entry pgdir b = v2p v ||| (pteW ||| pteU) ||| pteP ∧ s'.page v = fun _ => 0
  others : ∀ b, Aligned b → ¬ (lo ≤ b.toNat ∧ b.toNat < hi) →
    s'.entry pgdir b = s.entry pgdir b

variable {k : Image} {s s' : Mem} {pgdir oldsz newsz a : Word} {fault : Fault → Prop}

def Maps (s : Mem) (pgdir : Word) (limit : Nat) : Prop :=
  ∀ b, Aligned b → b < kernbase → (s.frameOf pgdir b ≠ none ↔ b.toNat < limit)

structure Request where
  table : Bool
  granted : Bool
  deriving DecidableEq

/-- The `kalloc`s for pages with the given directory indices, up to the first page that is refused:
one for each page, and one for its page table where there is none. -/
def requests : (PtIndex → Bool) → List PtIndex → Stream' Bool → List Request
  | _, [], _ => []
  | present, i :: rest, grants =>
    ⟨false, grants.head⟩ ::
      if grants.head then
        if present i then requests present rest grants.tail
        else ⟨true, grants.tail.head⟩ :: requests
          (if grants.tail.head then Function.update present i true else present) rest
          grants.tail.tail
      else []

/-- The page tables that are there behind these `kalloc`s, and whether the later ones succeed. -/
def behind : (PtIndex → Bool) → List PtIndex → Stream' Bool → (PtIndex → Bool) × Stream' Bool
  | present, [], grants => (present, grants)
  | present, i :: rest, grants =>
    if grants.head then
      if present i then behind present rest grants.tail
      else behind (if grants.tail.head then Function.update present i true else present) rest
        grants.tail.tail
    else (present, grants.tail)

def indices : Nat → Word → List PtIndex
  | 0, _ => []
  | count + 1, a => pdx a :: indices count (a + pgsize)

def Refused (rs : List Request) : Prop := ∃ r ∈ rs, r.table = false ∧ r.granted = false

def AllTables (rs : List Request) : Prop := ∀ r ∈ rs, r.table = true → r.granted = true

instance (rs : List Request) : Decidable (Refused rs) :=
  inferInstanceAs (Decidable (∃ r ∈ rs, _))

instance (rs : List Request) : Decidable (AllTables rs) :=
  inferInstanceAs (Decidable (∀ r ∈ rs, _))

@[simp]
theorem refused_cons {r : Request} {rs : List Request} :
    Refused (r :: rs) ↔ r.table = false ∧ r.granted = false ∨ Refused rs :=
  List.exists_mem_cons_iff ..

@[simp]
theorem allTables_cons {r : Request} {rs : List Request} :
    AllTables (r :: rs) ↔ (r.table = true → r.granted = true) ∧ AllTables rs :=
  List.forall_mem_cons

def requestsUpTo (s : Mem) (pgdir a newsz : Word) : List Request :=
  requests (s.present pgdir) (indices (pagesUpTo a newsz) a) s.grants

def behindUpTo (s : Mem) (pgdir a newsz : Word) : (PtIndex → Bool) × Stream' Bool :=
  behind (s.present pgdir) (indices (pagesUpTo a newsz) a) s.grants

def TablesGranted (pgdir oldsz newsz : Word) (s : Mem) : Prop :=
  Refused (requestsUpTo s pgdir (pgRoundUp oldsz) newsz) ∨
    AllTables (requestsUpTo s pgdir (pgRoundUp oldsz) newsz)

instance (pgdir oldsz newsz : Word) (s : Mem) : Decidable (TablesGranted pgdir oldsz newsz s) :=
  inferInstanceAs (Decidable (_ ∨ _))

section Requests

variable {s₁ s₂ : Mem}

theorem requestsUpTo_end (ends : ¬ a < newsz) : requestsUpTo s pgdir a newsz = [] ∧
    behindUpTo s pgdir a newsz = (s.present pgdir, s.grants) := by
  have above : newsz.toNat ≤ a.toNat := Nat.le_of_not_lt ends
  have none : pagesUpTo a newsz = 0 := by
    rw [pagesUpTo]
    omega
  rw [requestsUpTo, behindUpTo, none]
  exact ⟨rfl, rfl⟩

section

variable (more : a < newsz) (small : a.toNat + 4096 < 2 ^ 32)
include more small

theorem requestsUpTo_refused (first : s.grants = .cons false s₁.grants) :
    requestsUpTo s pgdir a newsz = [⟨false, false⟩] := by
  rw [requestsUpTo, pagesUpTo_next more small, indices, requests, first]
  rfl

theorem requestsUpTo_denied (first : s.grants = .cons true s₁.grants)
    (same : s₁.present pgdir = s.present pgdir) (denied : Denied pgdir a s₁ s₂) :
    requestsUpTo s pgdir a newsz =
        ⟨false, true⟩ :: ⟨true, false⟩ :: requestsUpTo s₂ pgdir (a + pgsize) newsz ∧
      behindUpTo s pgdir a newsz = behindUpTo s₂ pgdir (a + pgsize) newsz := by
  obtain ⟨absent, second, kept⟩ := denied
  rw [requestsUpTo, requestsUpTo, behindUpTo, behindUpTo, pagesUpTo_next more small, indices,
    requests, behind, first, second, kept, ← same]
  simp [absent]

theorem requestsUpTo_mapped (first : s.grants = .cons true s₁.grants)
    (same : s₁.present pgdir = s.present pgdir) (walked : Walked pgdir a s₁ s₂) :
    requestsUpTo s pgdir a newsz = ⟨false, true⟩ ::
        ((if s.present pgdir (pdx a) then [] else [⟨true, true⟩]) ++
          requestsUpTo s₂ pgdir (a + pgsize) newsz) ∧
      behindUpTo s pgdir a newsz = behindUpTo s₂ pgdir (a + pgsize) newsz := by
  obtain ⟨second, entered⟩ := walked
  rw [requestsUpTo, requestsUpTo, behindUpTo, behindUpTo, pagesUpTo_next more small, indices,
    requests, behind, first, entered, ← same]
  rw [second]
  cases there : s₁.present pgdir (pdx a) with
  | true => simp [← there]
  | false => simp

end

end Requests

theorem userFlags : IsFlags (pteW ||| pteU) := rfl

theorem Attempted.allocated {lo hi : Nat} (attempted : Attempted k pgdir s s' lo hi)
    (all : ∀ b, Aligned b → lo ≤ b.toNat → b.toNat < hi → s'.frameOf pgdir b ≠ none) :
    Allocated k pgdir s s' lo hi :=
  ⟨attempted.grown, fun b page low high => attempted.fresh b page low high (all b page low high),
    attempted.others⟩

/-- What one round of `allocuvm` does that is not refused its page: the page is mapped to a page of
zeros that was free, or it was denied a page table. -/
structure Round (k : Image) (pgdir a newsz : Word) (s s' : Mem) : Prop where
  grown : Grown k pgdir s s'
  fresh : s'.frameOf pgdir a ≠ none → ∃ v ∈ s.freelist,
    s'.entry pgdir a = v2p v ||| (pteW ||| pteU) ||| pteP ∧ s'.page v = fun _ => 0
  others : ∀ b, Aligned b → b ≠ a → s'.entry pgdir b = s.entry pgdir b
  refused : Refused (requestsUpTo s pgdir a newsz) ↔
    Refused (requestsUpTo s' pgdir (a + pgsize) newsz)
  tables : AllTables (requestsUpTo s pgdir a newsz) ↔
    s'.frameOf pgdir a ≠ none ∧ AllTables (requestsUpTo s' pgdir (a + pgsize) newsz)
  behind : behindUpTo s pgdir a newsz = behindUpTo s' pgdir (a + pgsize) newsz

theorem wp_allocRound {post : Word → Mem → Prop} {fuel : Nat} (space : Space k s pgdir)
    (aligned : Aligned a) (user : a.toNat < 2 ^ 31) (more : a < newsz)
    (unmapped : s.frameOf pgdir a = none)
    (refused : ∀ outages, Refused (requestsUpTo s pgdir a newsz) →
      Wp (do
        let _ ← deallocuvm k pgdir newsz oldsz
        return 0) post fault { s with outages })
    (round : ∀ s', Round k pgdir a newsz s s' →
      Wp (allocLoop k pgdir oldsz newsz fuel (a + pgsize)) post fault s') :
    Wp (allocLoop k pgdir oldsz newsz (fuel + 1) a) post fault s := by
  have near : a.toNat + 4096 < 2 ^ 32 := by omega
  rw [allocLoop, if_pos more, wp_bind]
  apply wp_kalloc
  · intro outages _ first
    refine refused outages ?_
    rw [requestsUpTo_refused more near first]
    exact ⟨_, List.mem_singleton_self _, rfl, rfl⟩
  · intro v freelist outages pool _ first
    have member : v ∈ s.freelist := by
      rw [pool]
      exact List.mem_cons_self
    obtain ⟨taken, entries, loose, busy⟩ := grown_take space pool outages fun _ => 0
    have tables := tableAt_take space pool outages fun _ => 0
    have zero : Mem.page ⟨Function.update s.page v fun _ => 0, freelist, outages⟩ v =
        fun _ => 0 := Function.update_self ..
    have served : s.grants = .cons true
        (Mem.grants ⟨Function.update s.page v fun _ => 0, freelist, outages⟩) := first
    simp only [setPage, wp_bind, wp_modify]
    generalize (⟨Function.update s.page v fun _ => 0, freelist, outages⟩ : Mem) = s₁ at *
    have present : s₁.present pgdir = s.present pgdir := by
      funext i
      rw [Mem.present, tables]
      rfl
    have kept : ∀ b, s₁.entry pgdir b = s.entry pgdir b := fun b => by rw [entry, entries]; rfl
    refine wp_mapUser taken.space aligned (lt_def.mpr user) ?_ userFlags (space.pool v member)
      loose busy (fun s₂ _ grown same denied => round s₂ ?_)
      fun s₂ grown mapped walked => round s₂ ?_
    · rw [frameOf, kept]
      exact unmapped
    · obtain ⟨rs, later⟩ := requestsUpTo_denied more near served present denied
      have hole : s₂.frameOf pgdir a = none := by
        rw [frameOf, entry, same]
        exact (congrArg target (kept a)).trans unmapped
      refine ⟨taken.trans grown.toGrown, fun mapped => absurd hole mapped, ?_, ?_, ?_, later⟩
      · intro b _ _
        rw [entry, same]
        exact kept b
      · simp [rs]
      · simp [rs, hole]
    · obtain ⟨rs, later⟩ := requestsUpTo_mapped more near served present walked
      have here : s₂.entry pgdir a = v2p v ||| (pteW ||| pteU) ||| pteP := by
        rw [mapped a aligned, if_pos rfl]
      have frame : s₂.frameOf pgdir a ≠ none := by
        rw [frameOf, here, target_entry (space.pool v member).1 userFlags]
        exact Option.some_ne_none v
      refine ⟨taken.trans grown.toGrown, fun _ => ⟨v, member, here, ?_⟩, ?_, ?_, ?_, later⟩
      · rw [grown.kept v busy fun structural => ?_, zero]
        obtain ⟨r, holds, -⟩ := Space.held_structural structural
        exact loose r holds
      · intro b page differ
        rw [mapped b page, if_neg differ]
        exact kept b
      · rw [rs]
        split <;> simp
      · rw [rs]
        split <;> simp [frame]

theorem Attempted.extend {s₁ s₂ : Mem} {lo : Nat} (space : Space k s pgdir)
    (attempted : Attempted k pgdir s s₁ lo a.toNat) (aligned : Aligned a) (low : lo ≤ a.toNat)
    (user : a.toNat < 2 ^ 31) (round : Round k pgdir a newsz s₁ s₂) :
    Attempted k pgdir s s₂ lo (a.toNat + 4096) := by
  refine ⟨attempted.grown.trans round.grown, ?_, ?_⟩
  · intro b page inside below mapped
    by_cases same : b = a
    · subst same
      obtain ⟨v, member, entry, zero⟩ := round.fresh mapped
      exact ⟨v, attempted.grown.pool.subset member, entry, zero⟩
    · have before : b.toNat < a.toNat := by
        have differ : b.toNat ≠ a.toNat := fun equal => same (BitVec.eq_of_toNat_eq equal)
        rw [aligned_iff] at page aligned
        omega
      rw [frameOf, round.others b page same] at mapped
      obtain ⟨w, old, entry, zero⟩ := attempted.fresh b page inside before mapped
      refine ⟨w, old, by rw [round.others b page same, entry], ?_⟩
      have frame : s₁.frameOf pgdir b = some w := by
        rw [frameOf, entry, target_entry (space.pool w old).1 userFlags]
      have held := Space.held_of_frameOf (lt_def.mpr (Nat.lt_trans before user)) frame
      rw [round.grown.kept w (attempted.grown.space.apart held)
        (attempted.grown.space.frame_not_structural held), zero]
  · intro b page outside
    have differ : b ≠ a := by
      rintro rfl
      exact outside ⟨low, by omega⟩
    rw [round.others b page differ]
    exact attempted.others b page (by omega)

theorem Allocated.maps {lo hi : Nat} (space : Space k s pgdir)
    (allocated : Allocated k pgdir s s' lo hi) (maps : Maps s pgdir lo) :
    Maps s' pgdir (max lo hi) := by
  intro b page user
  by_cases inside : lo ≤ b.toNat ∧ b.toNat < hi
  · obtain ⟨v, member, entry, -⟩ := allocated.fresh b page inside.1 inside.2
    rw [frameOf, entry, target_entry (space.pool v member).1 userFlags]
    simp [inside.2]
  · rw [frameOf, allocated.others b page inside]
    have before := maps b page user
    rw [frameOf] at before
    rw [before]
    omega

theorem table_of_mapped {limit : Nat} {p : Word}
    (mapped : ∀ b, Aligned b → b < kernbase → b.toNat < limit → s.frameOf pgdir b ≠ none)
    (aligned : Aligned p) (below : p.toNat ≤ limit) (user : p.toNat ≤ 2 ^ 31)
    (missing : s.tableAt pgdir (pdx p) = none) : p.toNat % 2 ^ 22 = 0 := by
  by_contra middle
  have page := aligned_iff.mp aligned
  have previous : (p - pgsize).toNat = p.toNat - 4096 := by
    unfold pgsize
    bv_omega
  have same : pdx (p - pgsize) = pdx p := by
    rw [Fin.ext_iff, pdx_val, pdx_val, previous]
    omega
  have aligned' : Aligned (p - pgsize) := by
    rw [aligned_iff, previous]
    omega
  have user' : p - pgsize < kernbase := by
    rw [lt_def, previous]
    show _ < 2 ^ 31
    omega
  obtain ⟨pgtab, there⟩ :=
    Mem.exists_table (mapped (p - pgsize) aligned' user' (by rw [previous]; omega))
  rw [same, missing] at there
  cases there

structure Undone (k : Image) (pgdir : Word) (s s' : Mem) : Prop where
  space : Space k s' pgdir
  pool : s'.freelist ⊆ s.freelist
  structural : ∀ v, s'.Structural pgdir v → s.Structural pgdir v ∨ v ∈ s.freelist
  frames : ∀ b, Aligned b → b < kernbase → s'.frameOf pgdir b = s.frameOf pgdir b
  entries : ∀ b, Aligned b → s.frameOf pgdir b ≠ none → s'.entry pgdir b = s.entry pgdir b
  kept : ∀ v, v ∉ s.freelist → ¬ s.Structural pgdir v → s'.page v = s.page v

theorem Attempted.undo {s₁ s₂ : Mem} {lo mid hi : Nat} {frames : List Word}
    (space : Space k s pgdir) (maps : Maps s pgdir lo) (attempted : Attempted k pgdir s s₁ lo mid)
    (inside : mid ≤ hi) (small : hi ≤ 2 ^ 31) (released : Released k pgdir s₁ s₂ lo hi frames) :
    Undone k pgdir s s₂ := by
  have before : ∀ b, Aligned b → b < kernbase → lo ≤ b.toNat → s.frameOf pgdir b = none := by
    intro b page user low
    by_contra mapped
    exact absurd ((maps b page user).mp mapped) (by omega)
  -- the frames that are freed are those that were taken
  have taken : ∀ v ∈ frames, v ∈ s.freelist := by
    intro v member
    obtain ⟨b, page, low, high, mapped⟩ := (released.mapped v).mp member
    by_cases early : b.toNat < mid
    · obtain ⟨w, old, entry, -⟩ := attempted.fresh b page low early (by rw [mapped]; nofun)
      rw [frameOf, entry, target_entry (space.pool w old).1 userFlags] at mapped
      cases mapped
      exact old
    · rw [frameOf, attempted.others b page (by omega)] at mapped
      have none := before b page (lt_def.mpr (Nat.lt_of_lt_of_le high small)) low
      rw [frameOf, mapped] at none
      cases none
  refine ⟨released.space, ?_, ?_, ?_, ?_, ?_⟩
  · intro v member
    rw [released.freelist, List.mem_append, List.mem_reverse] at member
    rcases member with freed | old
    · exact taken v freed
    · exact attempted.grown.pool.subset old
  · intro v structural
    rw [Mem.Structural, released.tables] at structural
    exact attempted.grown.structural v structural
  · intro b page user
    by_cases range : lo ≤ b.toNat ∧ b.toNat < hi
    · rw [released.frameOf_inside page range.1 range.2, before b page user range.1]
    · rw [released.frameOf_outside page (by omega), frameOf,
        attempted.others b page (by omega)]
      rfl
  · intro b page mapped
    have outside : ¬ (lo ≤ b.toNat ∧ b.toNat < hi) := by
      rintro ⟨low, high⟩
      exact mapped (before b page (lt_def.mpr (Nat.lt_of_lt_of_le high small)) low)
    rw [released.entries b page, if_neg (by tauto), attempted.others b page (by omega)]
  · intro v busy outside
    have outside' : ¬ s₁.Structural pgdir v := fun structural =>
      (attempted.grown.structural v structural).elim outside busy
    rw [released.kept v (fun member => busy (taken v member)) outside',
      attempted.grown.kept v busy outside]

theorem wp_allocLoop {post : Word → Mem → Prop} (fuel : Nat) {s₁ : Mem} (space : Space k s pgdir)
    (maps : Maps s pgdir (firstPage oldsz)) (small : newsz.toNat < 2 ^ 31) (aligned : Aligned a)
    (low : firstPage oldsz ≤ a.toNat)
    (near : a.toNat = firstPage oldsz ∨ a.toNat < newsz.toNat + 4096)
    (enough : pagesUpTo a newsz < fuel)
    (attempted : Attempted k pgdir s s₁ (firstPage oldsz) a.toNat)
    (done : ∀ s', Attempted k pgdir s s' (firstPage oldsz) newsz.toNat →
      (∀ b, Aligned b → b.toNat < a.toNat → s'.entry pgdir b = s₁.entry pgdir b) →
      ¬ Refused (requestsUpTo s₁ pgdir a newsz) →
      ((∀ b, Aligned b → a.toNat ≤ b.toNat → b < newsz → s'.frameOf pgdir b ≠ none) ↔
        AllTables (requestsUpTo s₁ pgdir a newsz)) →
      (s'.present pgdir, s'.grants) = behindUpTo s₁ pgdir a newsz → post newsz s')
    (undone : ∀ s', Undone k pgdir s s' → Refused (requestsUpTo s₁ pgdir a newsz) → post 0 s') :
    Wp (allocLoop k pgdir oldsz newsz fuel a) post fault s₁ := by
  induction fuel generalizing s₁ a with
  | zero => exact absurd enough (Nat.not_lt_zero _)
  | succ fuel ih =>
    by_cases more : a < newsz
    · have below := lt_def.mp more
      have user : a.toNat < 2 ^ 31 := Nat.lt_trans below small
      have next := toNat_next (a := a) (by omega)
      have unmapped : s₁.frameOf pgdir a = none := by
        rw [frameOf, attempted.others a aligned (by omega)]
        by_contra mapped
        have bound := (maps a aligned (lt_def.mpr user)).mp mapped
        omega
      apply wp_allocRound attempted.grown.space aligned user more unmapped
      · intro outages refused
        have shorter : oldsz < newsz := by
          rw [lt_def]
          rw [firstPage] at low
          omega
        have old : (pgRoundUp oldsz).toNat = firstPage oldsz :=
          pgRoundUp_toNat (by have := lt_def.mp shorter; omega)
        have failed : Attempted k pgdir s { s₁ with outages } (firstPage oldsz) a.toNat :=
          ⟨attempted.grown.trans (grown_pool attempted.grown.space (List.suffix_refl _) outages),
            attempted.fresh, attempted.others⟩
        rw [wp_bind]
        refine wp_deallocuvm failed.grown.space (by omega) ?_ ?_ ?_
        · intro _ missing
          rw [← old]
          refine table_of_mapped (fun b page inner (early : b.toNat < firstPage oldsz) => ?_) ?_
            (by rw [old]) (by rw [old]; omega) missing
          · rw [frameOf, failed.others b page (by omega)]
            exact (maps b page inner).mpr early
          · rw [aligned_iff, old, firstPage]
            omega
        · intro reversed
          exact absurd shorter (BitVec.not_lt.mpr reversed)
        · intro _ s' released
          exact undone s' (failed.undo space maps (by omega) (by omega) released) refused
      · intro s₂ round
        have fewer := pagesUpTo_next more (by omega)
        have extended : Attempted k pgdir s s₂ (firstPage oldsz) (a + pgsize).toNat := by
          rw [next]
          exact attempted.extend space aligned low user round
        refine ih (aligned_next aligned) (by rw [next]; omega) (by rw [next]; omega) (by omega)
          extended (fun s' all before served exact later => ?_)
          fun s' all refused => undone s' all (round.refused.mpr refused)
        · refine done s' all (fun b page early => ?_) (mt round.refused.mp served) ?_
            (later.trans round.behind.symm)
          · have differ : b ≠ a := by
              rintro rfl
              omega
            rw [before b page (by rw [next]; omega), round.others b page differ]
          · have here : s'.frameOf pgdir a = s₂.frameOf pgdir a := by
              rw [frameOf, before a aligned (by rw [next]; omega)]
              rfl
            rw [round.tables, ← exact, ← here]
            constructor
            · intro mapped
              exact ⟨mapped a aligned (Nat.le_refl _) more,
                fun b page above => mapped b page (by rw [next] at above; omega)⟩
            · rintro ⟨first, others⟩ b page above inside
              by_cases same : b = a
              · rw [same]
                exact first
              · have distinct : b.toNat ≠ a.toNat := fun equal =>
                  same (BitVec.eq_of_toNat_eq equal)
                rw [aligned_iff] at aligned
                refine others b page ?_ inside
                rw [aligned_iff] at page
                rw [next]
                omega
    · have above := Nat.le_of_not_lt more
      obtain ⟨nothing, later⟩ : requestsUpTo s₁ pgdir a newsz = [] ∧ _ := requestsUpTo_end more
      have tables : AllTables (requestsUpTo s₁ pgdir a newsz) := by
        rw [nothing]
        exact fun r member => absurd member List.not_mem_nil
      rw [allocLoop, if_neg more, wp_pure]
      refine done s₁ ⟨attempted.grown, ?_, ?_⟩ (fun _ _ _ => rfl) ?_ (iff_of_true ?_ tables)
        later.symm
      · intro b page lower upper
        exact attempted.fresh b page lower (by omega)
      · intro b page outside
        refine attempted.others b page fun range => outside ⟨range.1, ?_⟩
        rw [aligned_iff] at page aligned
        omega
      · rw [nothing]
        rintro ⟨r, member, -⟩
        cases member
      · intro b _ low' high
        have high' := lt_def.mp high
        omega

theorem wp_allocuvm_any {post : Word → Mem → Prop} (space : Space k s pgdir)
    (maps : Maps s pgdir (firstPage oldsz)) (le : oldsz ≤ newsz) (small : newsz < kernbase)
    (done : ∀ s', Attempted k pgdir s s' (firstPage oldsz) newsz.toNat →
      ¬ Refused (requestsUpTo s pgdir (pgRoundUp oldsz) newsz) →
      ((∀ b, Aligned b → firstPage oldsz ≤ b.toNat → b < newsz → s'.frameOf pgdir b ≠ none) ↔
        AllTables (requestsUpTo s pgdir (pgRoundUp oldsz) newsz)) →
      (s'.present pgdir, s'.grants) = behindUpTo s pgdir (pgRoundUp oldsz) newsz →
      post newsz s')
    (undone : ∀ s', Undone k pgdir s s' →
      Refused (requestsUpTo s pgdir (pgRoundUp oldsz) newsz) → post 0 s') :
    Wp (allocuvm k pgdir oldsz newsz) post fault s := by
  have le' := le_def.mp le
  have small' : newsz.toNat < 2 ^ 31 := lt_def.mp small
  have lo : (pgRoundUp oldsz).toNat = firstPage oldsz := pgRoundUp_toNat (by omega)
  rw [allocuvm, if_neg (BitVec.not_le.mpr small), if_neg (BitVec.not_lt.mpr le)]
  refine wp_allocLoop _ space maps small' ?_ (by rw [lo]) (.inl lo) ?_ ?_ ?_ undone
  · rw [aligned_iff, lo, firstPage]
    omega
  · rw [pagesUpTo]
    omega
  · rw [lo]
    exact ⟨.refl space, fun b _ low high => by omega, fun b _ _ => rfl⟩
  · intro s' all _ served exact later
    rw [lo] at exact
    exact done s' all served exact later

theorem wp_allocuvm {post : Word → Mem → Prop} (space : Space k s pgdir)
    (maps : Maps s pgdir (firstPage oldsz)) (le : oldsz ≤ newsz) (small : newsz < kernbase)
    (granted : TablesGranted pgdir oldsz newsz s)
    (done : ∀ s', Allocated k pgdir s s' (firstPage oldsz) newsz.toNat → post newsz s')
    (undone : ∀ s', Undone k pgdir s s' → post 0 s') :
    Wp (allocuvm k pgdir oldsz newsz) post fault s := by
  refine wp_allocuvm_any space maps le small (fun s' all served exact _ => ?_)
    fun s' all _ => undone s' all
  have mapped := exact.mpr (granted.resolve_left served)
  exact done s' (all.allocated fun b page low high => mapped b page low (lt_def.mpr high))

/-- `allocuvm` returns, and it maps everything or fails cleanly exactly when no page table is
denied while all pages are had. If it returns the new size, each page from the old size on is
mapped for the user to its own page of zeros from the free list; if it returns zero, the user pages
that are mapped are those before the call; and the entries of the pages below the old size never
change. -/
theorem allocuvm_maps (space : Space k s pgdir) (oldsz newsz : Word)
    (maps : Maps s pgdir (firstPage oldsz)) (le : oldsz ≤ newsz) (small : newsz < kernbase) :
    ∃ r s', allocuvm k pgdir oldsz newsz s = .ok (r, s') ∧
      (((r = newsz ∨ r = 0) ∧
        (r = newsz →
          (∀ b, Aligned b → firstPage oldsz ≤ b.toNat → b < newsz → ∃ v ∈ s.freelist,
            s'.entry pgdir b = v2p v ||| (pteW ||| pteU) ||| pteP ∧ s'.frameOf pgdir b = some v ∧
              s'.page v = fun _ => 0) ∧
          ∀ b c v, Aligned b → Aligned c → b < kernbase → c < kernbase →
            s'.frameOf pgdir b = some v → s'.frameOf pgdir c = some v → b = c) ∧
        (r = 0 → ∀ b, Aligned b → b < kernbase →
          (s'.frameOf pgdir b ≠ none ↔ s.frameOf pgdir b ≠ none)) ∧
        ∀ b, Aligned b → b.toNat < firstPage oldsz → s'.entry pgdir b = s.entry pgdir b) ↔
      TablesGranted pgdir oldsz newsz s) := by
  have le' := BitVec.le_def.mp le
  have small' : newsz.toNat < 2 ^ 31 := BitVec.lt_def.mp small
  apply Wp.returns
  refine wp_allocuvm_any space maps le small (fun s' attempted served exact _ => ?_)
    fun s' undone refused => iff_of_true ⟨.inr rfl, ?_, ?_, ?_⟩ (.inl refused)
  · constructor
    · rintro ⟨-, all, -⟩
      refine .inr (exact.mp fun b page low high => ?_)
      obtain ⟨v, -, -, frame, -⟩ := (all rfl).1 b page low high
      rw [frame]
      nofun
    · intro granted
      have mapped := exact.mpr (granted.resolve_left served)
      refine ⟨.inl rfl, fun _ => ⟨?_, ?_⟩, ?_, ?_⟩
      · intro b page low high
        obtain ⟨v, member, entry, zero⟩ :=
          attempted.fresh b page low (BitVec.lt_def.mp high) (mapped b page low high)
        refine ⟨v, member, entry, ?_, zero⟩
        rw [Mem.frameOf, entry, target_entry (space.pool v member).1 userFlags]
      · intro b c v page page' user user' first second
        exact attempted.grown.space.frameOf_injective page page' user user' first second
      · rintro rfl b page user
        rw [Mem.frameOf, attempted.others b page (by simp)]
        rfl
      · intro b page below
        exact attempted.others b page (by omega)
  · rintro rfl
    refine ⟨fun b page low high => absurd high BitVec.not_lt_zero, ?_⟩
    intro b c v page page' user user' first second
    exact undone.space.frameOf_injective page page' user user' first second
  · intro _ b page user
    rw [undone.frames b page user]
  · intro b page below
    refine undone.entries b page ?_
    refine (maps b page (BitVec.lt_def.mpr ?_)).mpr below
    show _ < 2 ^ 31
    rw [firstPage] at below
    rw [aligned_iff] at page
    omega

def blank (outages : List Bool) : Mem where
  page _ _ := 0
  freelist := [0x80201000, 0x80202000]
  outages

theorem blank_space (outages : List Bool) : Space smallImage (blank outages) 0x80200000 := by
  have managed : ∀ v ∈ [(0x80200000 : Word), 0x80201000, 0x80202000], Managed smallImage v := by
    simp only [List.mem_cons, List.not_mem_nil, or_false]
    rintro v (rfl | rfl | rfl) <;> decide
  obtain ⟨fresh, -⟩ := fresh_empty
    (s := ⟨fun _ _ => 0, [0x80200000, 0x80201000, 0x80202000], []⟩) (by decide) managed rfl outages
  rw [Function.update_eq_self] at fresh
  exact fresh.space

theorem blank_maps (outages : List Bool) : Maps (blank outages) 0x80200000 0 := by
  intro b _ _
  have missing : (blank outages).tableAt 0x80200000 (pdx b) = none := target_zero
  rw [frameOf, entry, Mem.pte_of_missing missing, target_zero]
  simp

/-- The first page of a process is mapped when both allocations succeed. -/
theorem allocuvm_maps_first : ∃ r s',
    allocuvm smallImage 0x80200000 0 0x1000 (blank []) = .ok (r, s') ∧ r = 0x1000 ∧
      ∃ v ∈ (blank []).freelist, s'.frameOf 0x80200000 0 = some v ∧ s'.page v = fun _ => 0 := by
  have checked : Transition.ends (fun outcome => decide (outcome.1 = 0x1000))
      (allocuvm smallImage 0x80200000 0 0x1000 (blank [])) = true := by
    decide +kernel
  obtain ⟨⟨r, s'⟩, returned, facts⟩ := Transition.exists_of_ends checked
  have granted : TablesGranted 0x80200000 0 0x1000 (blank []) := by
    unfold TablesGranted
    decide +kernel
  obtain ⟨r', s'', returned', exact⟩ := allocuvm_maps (blank_space []) 0 0x1000
    (blank_maps []) (by decide) (by decide)
  rw [returned] at returned'
  cases returned'
  obtain ⟨-, mapped, -⟩ := exact.mpr granted
  have grown : r = 0x1000 := of_decide_eq_true facts
  obtain ⟨v, member, -, frame, zero⟩ := (mapped grown).1 0 (by decide) (by decide) (by decide)
  exact ⟨r, s', returned, grown, v, member, frame, zero⟩

/-- The page table of the first page is denied: `allocuvm` returns the new size with the page
unmapped. -/
theorem allocuvm_unmapped : ∃ s',
    allocuvm smallImage 0x80200000 0 0x1000 (blank [false, true]) = .ok (0x1000, s') ∧
      s'.frameOf 0x80200000 0 = none := by
  have checked : Transition.ends (fun outcome => decide (outcome.1 = 0x1000 ∧
      outcome.2.frameOf 0x80200000 0 = none))
      (allocuvm smallImage 0x80200000 0 0x1000 (blank [false, true])) = true := by
    decide +kernel
  obtain ⟨⟨r, s'⟩, returned, facts⟩ := Transition.exists_of_ends checked
  obtain ⟨rfl, unmapped⟩ := of_decide_eq_true facts
  exact ⟨s', returned, unmapped⟩

/-- What `growproc` should do: set the size to the sum and map exactly the pages below it, keeping
the entries of the pages that stay, or fail with the size and the user mappings as they were. -/
def GrowSpec (k : Image) (pgdir sz n : Word) (s : Mem) : Prop :=
  ∃ outcome s', growproc k pgdir sz n s = .ok (outcome, s') ∧
    (outcome.1 = 0 ∧ (outcome.2.toNat : Int) = sz.toNat + n.toInt ∧
        Maps s' pgdir (firstPage outcome.2) ∧
        (∀ b, Aligned b → b.toNat < min (firstPage sz) (firstPage outcome.2) →
          s'.entry pgdir b = s.entry pgdir b) ∨
      outcome.1 = -1 ∧ outcome.2 = sz ∧ ∀ b, Aligned b → b < kernbase →
        s'.frameOf pgdir b = s.frameOf pgdir b ∧
          (s.frameOf pgdir b ≠ none → s'.entry pgdir b = s.entry pgdir b))

theorem wp_switchuvm {post : Unit → Mem → Prop} (space : Space k s pgdir) :
    Wp (switchuvm pgdir) post fault s' ↔ post () s' := by
  have root : s.held pgdir .root = some pgdir := rfl
  rw [switchuvm, if_neg (space.managed root).ne_zero]
  rfl

theorem lt_firstPage_iff {b : Word} (page : Aligned b) (sz : Word) :
    b.toNat < firstPage sz ↔ b.toNat < sz.toNat := by
  rw [aligned_iff] at page
  rw [firstPage]
  omega

section

variable (space : Space k s pgdir)
include space

variable {sz n : Word}

theorem growproc_up (maps : Maps s pgdir (firstPage sz)) (small : sz < kernbase) (up : 0 < n.toInt)
    (granted : sz + n < kernbase → TablesGranted pgdir sz (sz + n) s) :
    GrowSpec k pgdir sz n s := by
  have small' : sz.toNat < 2 ^ 31 := lt_def.mp small
  have value : n.toInt = n.toNat := by
    rw [toInt_eq_toNat_cond] at up ⊢
    split at up <;> omega
  have sum : (sz + n).toNat = sz.toNat + n.toNat := by
    rw [toInt_eq_toNat_cond] at up
    split at up <;> bv_omega
  apply Wp.returns
  rw [growproc, if_pos up, wp_bind]
  by_cases room : sz + n < kernbase
  · refine wp_allocuvm space maps (le_def.mpr (by omega)) room (granted room) ?_ ?_
    · intro s' allocated
      have nonzero : sz + n ≠ 0 := by
        intro zero
        rw [zero] at sum
        simp at sum
        omega
      rw [if_neg nonzero, wp_bind, wp_switchuvm allocated.grown.space, wp_pure]
      refine .inl ⟨rfl, by rw [sum, value]; omega, ?_, ?_⟩
      · show Maps s' pgdir (firstPage (sz + n))
        intro b page user
        rw [(allocated.maps space maps) b page user, lt_firstPage_iff page]
        have old := lt_firstPage_iff page sz
        omega
      · intro b page below
        exact allocated.others b page (by omega)
    · intro s' undone
      rw [if_pos rfl, wp_pure]
      exact .inr ⟨rfl, rfl, fun b page user => ⟨undone.frames b page user, undone.entries b page⟩⟩
  · rw [allocuvm, if_pos (BitVec.not_lt.mp room), wp_pure, if_pos rfl, wp_pure]
    exact .inr ⟨rfl, rfl, fun b _ _ => ⟨rfl, fun _ => rfl⟩⟩

variable {post : Int × Word → Mem → Prop}

theorem wp_growproc_down (maps : Maps s pgdir (firstPage sz)) (small : sz < kernbase)
    (down : n.toInt < 0) (enough : 0 ≤ sz.toNat + n.toInt)
    (freed : ∀ s', (sz + n).toNat = sz.toNat + n.toInt → Maps s' pgdir (firstPage (sz + n)) →
      (∀ b, Aligned b → b.toNat < firstPage (sz + n) → s'.entry pgdir b = s.entry pgdir b) →
      post (if sz + n = 0 then (-1, sz) else (0, sz + n)) s') :
    Wp (growproc k pgdir sz n) post fault s := by
  have small' : sz.toNat < 2 ^ 31 := lt_def.mp small
  have sum : ((sz + n).toNat : Int) = sz.toNat + n.toInt := by
    rw [toInt_eq_toNat_cond] at down enough ⊢
    split at down <;> bv_omega
  have smaller : sz + n < sz := lt_def.mpr (by omega)
  have less := lt_def.mp smaller
  have lo : (pgRoundUp (sz + n)).toNat = firstPage (sz + n) := pgRoundUp_toNat (by omega)
  rw [growproc, if_neg (by omega), if_pos down, wp_bind]
  refine wp_deallocuvm space (by omega) ?_ ?_ ?_
  · intro _ missing
    rw [← lo]
    refine table_of_mapped (fun b page user => (maps b page user).mpr) ?_ ?_ ?_ missing
    · rw [aligned_iff, lo, firstPage]
      omega
    · rw [lo, firstPage, firstPage]
      omega
    · rw [lo, firstPage]
      omega
  · intro reversed
    exact absurd smaller (BitVec.not_lt.mpr reversed)
  · intro _ s' released
    have result := freed s' sum ?_ ?_
    · split at result
      · rw [if_pos ‹_›]
        exact result
      · rw [if_neg ‹_›, wp_bind, wp_switchuvm released.space]
        exact result
    · intro b page user
      have old := maps b page user
      have first := lt_firstPage_iff page sz
      by_cases inside : firstPage (sz + n) ≤ b.toNat ∧ b.toNat < sz.toNat
      · rw [released.frameOf_inside page inside.1 inside.2]
        simp [inside.1]
      · rw [released.frameOf_outside page (by omega), old]
        have first' := lt_firstPage_iff page (sz + n)
        omega
    · intro b page below
      rw [released.entries b page, if_neg (by omega)]

theorem wp_growproc_wraps (small : sz < kernbase) (wraps : sz.toNat + n.toInt < 0)
    (nothing : post (if sz = 0 then (-1, sz) else (0, sz)) s) :
    Wp (growproc k pgdir sz n) post fault s := by
  have small' : sz.toNat < 2 ^ 31 := lt_def.mp small
  have larger : sz ≤ sz + n := by
    have low := BitVec.le_toInt n
    rw [toInt_eq_toNat_cond] at wraps low
    split at wraps <;> bv_omega
  rw [growproc, if_neg (by omega), if_pos (by omega), wp_bind, deallocuvm, if_pos larger, wp_pure]
  split at nothing
  · rw [if_pos ‹_›]
    exact nothing
  · rw [if_neg ‹_›, wp_bind, wp_switchuvm space]
    exact nothing

theorem growproc_to_zero (maps : Maps s pgdir (firstPage sz)) (small : sz < kernbase)
    (down : n.toInt < 0) (zero : sz.toNat + n.toInt = 0) :
    ∃ s', growproc k pgdir sz n s = .ok ((-1, sz), s') ∧ s.frameOf pgdir 0 ≠ none ∧
      s'.frameOf pgdir 0 = none := by
  have mapped : s.frameOf pgdir 0 ≠ none := by
    refine (maps 0 (by decide) (by decide)).mpr ?_
    rw [lt_firstPage_iff (by decide)]
    show 0 < sz.toNat
    omega
  have known : Wp (growproc k pgdir sz n) (fun outcome s' =>
      outcome = (-1, sz) ∧ s'.frameOf pgdir 0 = none) (fun _ => False) s := by
    refine wp_growproc_down space maps small down (by omega) fun s' sum maps' _ => ?_
    have nothing : sz + n = 0 := BitVec.eq_of_toNat_eq (by
      show _ = 0
      omega)
    rw [if_pos nothing]
    refine ⟨rfl, ?_⟩
    by_contra still
    have below := (maps' 0 (by decide) (by decide)).mp still
    rw [nothing] at below
    exact absurd below (by decide)
  obtain ⟨outcome, s', ran, rfl, unmapped⟩ := known.returns
  exact ⟨s', ran, mapped, unmapped⟩

theorem growproc_below_zero (small : sz < kernbase) (nonempty : sz ≠ 0)
    (wraps : sz.toNat + n.toInt < 0) : growproc k pgdir sz n s = .ok ((0, sz), s) := by
  have known : Wp (growproc k pgdir sz n) (fun outcome s' => outcome = (0, sz) ∧ s' = s)
      (fun _ => False) s := by
    refine wp_growproc_wraps space small wraps ?_
    rw [if_neg nonempty]
    exact ⟨rfl, rfl⟩
  obtain ⟨outcome, s', ran, rfl, rfl⟩ := known.returns
  exact ran

end

/-- `growproc` does what it should exactly when it does not shrink the process to nothing or below,
or the process has no memory. -/
theorem growproc_grows_iff (space : Space k s pgdir) (sz n : Word)
    (maps : Maps s pgdir (firstPage sz)) (small : sz < kernbase)
    (granted : 0 < n.toInt → sz + n < kernbase → TablesGranted pgdir sz (sz + n) s) :
    GrowSpec k pgdir sz n s ↔ 0 ≤ n.toInt ∨ 0 < sz.toNat + n.toInt ∨ sz = 0 := by
  rcases Int.lt_trichotomy n.toInt 0 with down | same | up
  · by_cases empty : sz = 0
    · refine iff_of_true ?_ (.inr (.inr empty))
      apply Wp.returns
      refine wp_growproc_wraps space small (by simp [empty, down]) ?_
      rw [if_pos empty]
      exact .inr ⟨rfl, rfl, fun b _ _ => ⟨rfl, fun _ => rfl⟩⟩
    rcases Int.lt_trichotomy (sz.toNat + n.toInt) 0 with wraps | zero | enough
    · refine iff_of_false ?_ (by simp only [empty, or_false]; omega)
      rintro ⟨outcome, s', ran, spec⟩
      rw [growproc_below_zero space small empty wraps] at ran
      cases ran
      rcases spec with ⟨-, size, -⟩ | ⟨failure, -⟩
      · simp only at size
        omega
      · simp at failure
    · refine iff_of_false ?_ (by simp only [empty, or_false]; omega)
      obtain ⟨s₁, ran₁, mapped, unmapped⟩ := growproc_to_zero space maps small down zero
      rintro ⟨outcome, s', ran, spec⟩
      rw [ran₁] at ran
      cases ran
      rcases spec with ⟨success, -⟩ | ⟨-, -, unchanged⟩
      · simp at success
      · rw [(unchanged 0 (by decide) (by decide)).1] at unmapped
        exact mapped unmapped
    · refine iff_of_true ?_ (.inr (.inl enough))
      apply Wp.returns
      refine wp_growproc_down space maps small down (by omega) fun s' sum maps' entries => ?_
      have more : sz + n ≠ 0 := by
        intro nothing
        rw [nothing] at sum
        simp at sum
        omega
      rw [if_neg more]
      exact .inl ⟨rfl, sum, maps', fun b page below => entries b page (Nat.lt_of_lt_of_le below
        (Nat.min_le_right _ _))⟩
  · refine iff_of_true ?_ (.inl (by omega))
    apply Wp.returns
    rw [growproc, if_neg (by omega), if_neg (by omega), wp_bind, wp_switchuvm space, wp_pure]
    exact .inl ⟨rfl, by rw [same]; simp, maps, fun b _ _ => rfl⟩
  · exact iff_of_true (growproc_up space maps small up (granted up)) (.inl (by omega))

/-- A process without memory grows by a page. -/
theorem growproc_grows_iff_page : GrowSpec smallImage 0x80200000 0 0x1000 (blank []) := by
  refine (growproc_grows_iff (blank_space []) 0 0x1000 (blank_maps []) (by decide) ?_).mpr
    (.inl (by decide))
  intro _ _
  unfold TablesGranted
  decide +kernel

theorem exists_onePage : ∃ s, Space smallImage s 0x80200000 ∧
    Maps s 0x80200000 (firstPage 0x1000) := by
  have checked : Transition.ends (fun outcome => decide (outcome.1 = 0x1000))
      (allocuvm smallImage 0x80200000 0 0x1000 (blank [])) = true := by
    decide +kernel
  obtain ⟨⟨r, s⟩, returned, facts⟩ := Transition.exists_of_ends checked
  have grown : r = 0x1000 := of_decide_eq_true facts
  have granted : TablesGranted 0x80200000 0 0x1000 (blank []) := by
    unfold TablesGranted
    decide +kernel
  have known : Wp (allocuvm smallImage 0x80200000 0 0x1000) (fun r s => r = 0x1000 →
      Space smallImage s 0x80200000 ∧ Maps s 0x80200000 (firstPage 0x1000)) (fun _ => False)
      (blank []) := by
    refine wp_allocuvm (blank_space []) (blank_maps []) (by decide) (by decide) granted
      (fun s allocated _ => ⟨allocated.grown.space, ?_⟩)
      fun s _ failed => absurd failed (by decide)
    have limit : max (firstPage 0) (0x1000 : Word).toNat = firstPage 0x1000 := by decide
    rw [← limit]
    exact allocated.maps (blank_space []) (blank_maps [])
  exact ⟨s, known.ok returned grown⟩

/-- A process of one page asks for one page less: its page is freed, and the call reports a
failure. -/
theorem growproc_frees_all : ∃ s s', Space smallImage s 0x80200000 ∧
    Maps s 0x80200000 (firstPage 0x1000) ∧
      growproc smallImage 0x80200000 0x1000 (-0x1000) s = .ok ((-1, 0x1000), s') ∧
      s.frameOf 0x80200000 0 ≠ none ∧ s'.frameOf 0x80200000 0 = none := by
  obtain ⟨s, space, maps⟩ := exists_onePage
  obtain ⟨s', ran, mapped, unmapped⟩ :=
    growproc_to_zero space maps (by decide) (n := -0x1000) (by decide) (by decide)
  exact ⟨s, s', space, maps, ran, mapped, unmapped⟩

end Vm

end Xv6
