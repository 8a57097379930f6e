import Xv6.Vm.Loading

/-!
# The verdict on a program

What `exec` does with the program headers of a file follows from the headers, the length of the
file, the page tables that the new directory has and the outcomes of the coming `kalloc`s. The
verdict is computed from these, header by header, and the loop over the headers does what it says.
-/

namespace Xv6

open Mem (entry frameOf)
open BitVec (lt_def ofNat)
open Bytes (Byte)
open ByteSpace (Memory)
open Program

namespace Vm

variable {k : Image} {s s₁ s₂ : Mem} {d newsz va a : Word} {bytes file : List Byte}
  {fault : Fault → Prop}

def headers (file : List Byte) : Nat → Word → List Proghdr
  | 0, _ => []
  | count + 1, off =>
    if (readi file off proghdrSize).1 = proghdrSize.toNat then
      Proghdr.ofBytes (readi file off proghdrSize).2 :: headers file count (off + proghdrSize)
    else []

theorem headers_succ {count : Nat} {off : Word}
    (full : (readi file off proghdrSize).1 = proghdrSize.toNat) :
    headers file (count + 1) off =
      Proghdr.ofBytes (readi file off proghdrSize).2 :: headers file count (off + proghdrSize) :=
  if_pos full

namespace Proghdr

/-- A segment to load is in the file in full, is no longer there than in memory, and lies in the
user part. -/
def WellFormed (file : List Byte) (ph : Proghdr) : Prop :=
  ph.type = elfProgLoad → ph.filesz ≤ ph.memsz ∧ ph.vaddr.toNat + ph.memsz.toNat < 2 ^ 31 ∧
    (ph.filesz = 0 ∨ ph.off.toNat + ph.filesz.toNat ≤ file.length)

def load (file : List Byte) (memory : Memory) (ph : Proghdr) : Memory :=
  if ph.type = elfProgLoad then
    ByteSpace.write memory ph.vaddr ((file.drop ph.off.toNat).take ph.filesz.toNat)
  else memory

end Proghdr

/-- What a header is judged by besides the file: the size so far, whether the end of a segment has
wrapped, the page tables that are there and the outcomes of the coming `kalloc`s. -/
structure Stage where
  sz : Word
  wraps : Bool
  present : PtIndex → Bool
  grants : Stream' Bool

namespace Stage

def pages (st : Stage) (newsz : Word) : List PtIndex :=
  indices (pagesUpTo (pgRoundUp st.sz) newsz) (pgRoundUp st.sz)

def asks (st : Stage) (newsz : Word) : List Request :=
  requests st.present (st.pages newsz) st.grants

def grow (st : Stage) (newsz : Word) : Stage where
  sz := if newsz < st.sz then st.sz else newsz
  wraps := st.wraps
  present := (behind st.present (st.pages newsz) st.grants).1
  grants := (behind st.present (st.pages newsz) st.grants).2

end Stage

/-- What becomes of a header, or of all. -/
inductive Verdict where
  | rejected
  | panics (message : String)
  | strays
  | denied
  | loaded (st : Stage)

namespace Proghdr

variable (ph : Proghdr) (file : List Byte) (st : Stage)

def room : Nat := min ph.filesz.toNat (firstPage st.sz - ph.vaddr.toNat)

def place : Verdict :=
  if 0 < ph.room st ∧ file.length < ph.off.toNat + ph.room st then .rejected
  else if ph.room st = ph.filesz.toNat then .loaded st
  else if st.present (pdx (ph.vaddr + ofNat 32 (ph.room st))) = false then
    .panics "loaduvm: address should exist"
  else if ph.off.toNat + ph.room st < file.length then .strays
  else .rejected

def behind : Stage :=
  { st.grow (ph.vaddr + ph.memsz) with
    wraps := st.wraps || decide (2 ^ 32 ≤ ph.vaddr.toNat + ph.memsz.toNat) }

def judge : Verdict :=
  if ph.type ≠ elfProgLoad then .loaded st
  else if ph.memsz < ph.filesz ∨ kernbase ≤ ph.vaddr + ph.memsz ∨
      Refused (st.asks (ph.vaddr + ph.memsz)) then .rejected
  else if ¬ AllTables (st.asks (ph.vaddr + ph.memsz)) then .denied
  else if (ph.behind st).sz = 0 then .rejected
  else if ¬ Aligned ph.vaddr then .panics "loaduvm: addr must be page aligned"
  else ph.place file (ph.behind st)

end Proghdr

def judge (file : List Byte) : Nat → Word → Stage → Verdict
  | 0, _, st => .loaded st
  | count + 1, off, st =>
    if (readi file off proghdrSize).1 = proghdrSize.toNat then
      match (Proghdr.ofBytes (readi file off proghdrSize).2).judge file st with
      | .loaded st' => judge file count (off + proghdrSize) st'
      | verdict => verdict
    else .rejected

structure Ready (k : Image) (s : Mem) (d : Word) (st : Stage) (s' : Mem) : Prop where
  filling : Filling k s d st.sz s'
  all : AllUser s' d
  small : st.sz < kernbase
  present : s'.present d = st.present
  grants : s'.grants = st.grants

variable {st st' : Stage} {ph : Proghdr}

theorem Ready.copied (ready : Ready k s d st s₁) (copied : s₁.Copied d va bytes s₂) :
    Ready k s d st s₂ := by
  refine ⟨ready.filling.copied copied, fun b page user mapped => ?_, ready.small, ?_, ?_⟩
  · rw [frameOf, entry, copied.entries] at mapped
    rw [entry, copied.entries]
    exact ready.all b page user mapped
  · rw [← ready.present]
    funext i
    rw [Mem.present, Mem.present, copied.tables]
  · rw [← ready.grants]
    funext n
    show Mem.grants s₂ n = Mem.grants s₁ n
    simp only [Mem.grants, copied.freelist, copied.outages]

theorem wp_fillMore {post : Word → Mem → Prop} (ready : Ready k s d st s₁)
    (failed : ∀ s', Fresh k s d s' → kernbase ≤ newsz ∨ Refused (st.asks newsz) → post 0 s')
    (denied : newsz < kernbase → ¬ Refused (st.asks newsz) → ¬ AllTables (st.asks newsz) →
      ∀ r s', post r s')
    (done : newsz < kernbase → ¬ Refused (st.asks newsz) → AllTables (st.asks newsz) →
      ∀ s', Ready k s d (st.grow newsz) s' → s'.userMemory d = s₁.userMemory d →
        (∀ i pgtab, s₁.tableAt d i = some pgtab → s'.tableAt d i = some pgtab) →
        post (st.grow newsz).sz s') :
    Wp (allocuvm k d st.sz newsz) post fault s₁ := by
  have asks : requestsUpTo s₁ d (pgRoundUp st.sz) newsz = st.asks newsz := by
    rw [requestsUpTo, ready.present, ready.grants]
    rfl
  have later : behindUpTo s₁ d (pgRoundUp st.sz) newsz =
      ((st.grow newsz).present, (st.grow newsz).grants) := by
    rw [behindUpTo, ready.present, ready.grants]
    rfl
  by_cases high : newsz ≥ kernbase
  · rw [allocuvm, if_pos high]
    exact failed s₁ ready.filling.fresh (.inl high)
  have below := BitVec.not_le.mp high
  by_cases less : newsz < st.sz
  · -- there is nothing to do
    have limit : st.sz.toNat < 2 ^ 31 := lt_def.mp ready.small
    have rounded : (pgRoundUp st.sz).toNat = firstPage st.sz := pgRoundUp_toNat (by omega)
    have ends : ¬ pgRoundUp st.sz < newsz := by
      rw [lt_def, rounded, firstPage]
      have below' := lt_def.mp less
      omega
    obtain ⟨none, same⟩ : requestsUpTo s₁ d (pgRoundUp st.sz) newsz = [] ∧ _ :=
      requestsUpTo_end ends
    have size : (st.grow newsz).sz = st.sz := if_pos less
    rw [asks] at none
    rw [later, Prod.mk.injEq] at same
    rw [allocuvm, if_neg high, if_pos less, wp_pure, ← size]
    refine done below ?_ ?_ s₁ ⟨?_, ready.all, ?_, same.1.symm, same.2.symm⟩ rfl fun _ _ => id
    · rw [none]
      rintro ⟨_, ⟨⟩, -⟩
    · rw [none]
      rintro _ ⟨⟩
    · rw [size]
      exact ready.filling
    · rw [size]
      exact ready.small
  · have le := BitVec.not_lt.mp less
    have size : (st.grow newsz).sz = newsz := if_neg less
    have space := ready.filling.fresh.space
    refine wp_allocuvm_any space ready.filling.maps le below ?_ fun s' undone refused => ?_
    · intro s' attempted served exact behind
      rw [asks] at served exact
      rw [later, Prod.mk.injEq] at behind
      by_cases tables : AllTables (st.asks newsz)
      · have mapped := exact.mpr tables
        have allocated := attempted.allocated fun b page low high =>
          mapped b page low (lt_def.mpr high)
        obtain ⟨filling, all, memory⟩ := ready.filling.allocated ready.all le below allocated
        have finish := done below served tables s'
        rw [size] at finish
        refine finish ⟨?_, all, ?_, behind.1, behind.2⟩ memory allocated.grown.tables
        · rw [size]
          exact filling
        · rw [size]
          exact below
      · exact denied below served tables newsz s'
    · rw [asks] at refused
      exact failed s' (ready.filling.fresh.undone undone) (.inr refused)

theorem Ready.userFrame (ready : Ready k s d st s₁) (below : a.toNat < firstPage st.sz) :
    ∃ v ∈ s.freelist, s₁.userFrame d a = some v := by
  have limit : st.sz.toNat < 2 ^ 31 := lt_def.mp ready.small
  have rounded := pgRoundDown_toNat (a := a)
  rw [firstPage] at below
  have user : pgRoundDown a < kernbase := by
    rw [lt_def, rounded]
    show _ < 2 ^ 31
    omega
  have mapped : s₁.frameOf d (pgRoundDown a) ≠ none := by
    refine (ready.filling.maps _ pgRoundDown_aligned user).mpr ?_
    rw [rounded, firstPage]
    omega
  obtain ⟨v, frame⟩ := Option.ne_none_iff_exists'.mp mapped
  refine ⟨v, ready.filling.fresh.held _ v (Space.held_of_frameOf user frame), ?_⟩
  have flag := ready.all _ pgRoundDown_aligned user mapped
  rw [← entry_page] at flag
  rw [frameOf, ← entry_page] at frame
  rw [Mem.userFrame, if_pos flag]
  exact frame

theorem wp_loaduvm {post : Int → Mem → Prop} (ready : Ready k s d st s₁)
    (aligned : Aligned ph.vaddr) (size : file.length < 2 ^ 32)
    (failed : ph.place file st = .rejected → ∀ s', Fresh k s d s' → post (-1) s')
    (panics : ∀ message, ph.place file st = .panics message → fault (.panic message))
    (strays : ph.place file st = .strays → (∀ r s', post r s') ∧ ∀ stopped, fault stopped)
    (done : ph.place file st = .loaded st → ∀ s', Ready k s d st s' →
      s'.userMemory d = ByteSpace.write (s₁.userMemory d) ph.vaddr
        ((file.drop ph.off.toNat).take ph.filesz.toNat) → post 0 s') :
    Wp (loaduvm d ph.vaddr file ph.off ph.filesz) post fault s₁ := by
  have limit : st.sz.toNat < 2 ^ 31 := lt_def.mp ready.small
  have whole := aligned_iff.mp aligned
  have room : ph.room st = min ph.filesz.toNat (firstPage st.sz - ph.vaddr.toNat) := rfl
  have last : firstPage st.sz ≤ 2 ^ 31 ∧ firstPage st.sz % 4096 = 0 := by
    rw [firstPage]
    omega
  have number : (ofNat 32 (ph.room st)).toNat = ph.room st := by
    rw [BitVec.toNat_ofNat]
    omega
  have start : ph.vaddr + 0 = ph.vaddr := BitVec.add_zero ph.vaddr
  rw [loaduvm, if_neg fun crooked => crooked whole]
  refine wp_loadLoop (ofNat 32 (ph.room st)) _ ready.filling.closed aligned (by decide)
    (by omega) size (.inl rfl) (Nat.zero_le _) (by omega) ?_ ?_ ?_ ?_ ?_
  · by_cases all : ph.room st = ph.filesz.toNat
    · rw [all]
      exact .inl (by rw [BitVec.ofNat_toNat, BitVec.setWidth_eq])
    · exact .inr (aligned_iff.mpr (by omega))
  · rw [pagesUpTo]
    show (ph.filesz.toNat - 0 + 4095) / 4096 < _
    omega
  · intro n inside
    have below : (ph.vaddr + ofNat 32 n).toNat < firstPage st.sz := by
      rw [BitVec.toNat_add, BitVec.toNat_ofNat]
      omega
    obtain ⟨v, -, frame⟩ := ready.userFrame below
    rw [frame]
    exact Option.some_ne_none v
  · -- the file ends in front of the room
    intro bytes s' copied _ some cut
    rw [number] at cut
    have some' := lt_def.mp some
    rw [number] at some'
    rw [start] at copied
    exact failed (if_pos ⟨some', cut⟩) s' (ready.copied copied).filling.fresh
  · intro bytes s' fuel i' copied taken inFile enough ends
    rw [start] at copied
    rw [number] at taken inFile
    have taken' : bytes = (file.drop ph.off.toNat).take (ph.room st) := taken
    have ready' := ready.copied copied
    have uncut : ¬ (0 < ph.room st ∧ file.length < ph.off.toNat + ph.room st) := by
      rintro ⟨some, cut⟩
      have inside := inFile (lt_def.mpr (by rw [number]; exact some))
      omega
    by_cases all : ph.room st = ph.filesz.toNat
    · have stops : ¬ i' < ph.filesz := by
        rcases ends with rfl | ⟨-, stops⟩
        · rw [lt_def, number, all]
          exact Nat.lt_irrefl _
        · exact stops
      rw [loadLoop_end stops enough, wp_pure]
      refine done ?_ s' ready' ?_
      · rw [Proghdr.place, if_neg uncut, if_pos all]
      · rw [copied.memory, taken', all]
    · obtain rfl : i' = ofNat 32 (ph.room st) := by
        refine ends.resolve_right fun same => all ?_
        rw [← number, same.1]
      have sum : (ph.off + ofNat 32 (ph.room st)).toNat = ph.off.toNat + ph.room st := by
        rw [BitVec.toNat_add, number]
        omega
      have table : s'.tableAt d (pdx (ph.vaddr + ofNat 32 (ph.room st))) = none ↔
          st.present (pdx (ph.vaddr + ofNat 32 (ph.room st))) = false := by
        rw [← ready'.present, Mem.present, Option.isSome_eq_false_iff, Option.isNone_iff_eq_none]
      have verdict : ph.place file st =
          if st.present (pdx (ph.vaddr + ofNat 32 (ph.room st))) = false then
            .panics "loaduvm: address should exist"
          else if ph.off.toNat + ph.room st < file.length then .strays else .rejected := by
        rw [Proghdr.place, if_neg uncut, if_neg all]
      rw [verdict] at failed panics strays
      refine wp_loadLoop_beyond (lt_def.mpr (by omega)) enough (fun none => ?_)
        (fun there behind => ?_) fun there inside => ?_
      · exact panics _ (if_pos (table.mp none))
      · rw [if_neg (mt table.mpr there), if_neg (by omega)] at failed
        exact failed rfl s' ready'.filling.fresh
      · rw [if_neg (mt table.mpr there), if_pos (by omega)] at strays
        exact strays rfl

theorem judge_succ {count : Nat} {off : Word}
    (full : (readi file off proghdrSize).1 = proghdrSize.toNat) :
    judge file (count + 1) off st =
      match (Proghdr.ofBytes (readi file off proghdrSize).2).judge file st with
      | .loaded st' => judge file count (off + proghdrSize) st'
      | verdict => verdict :=
  if_pos full

theorem Proghdr.judge_had (file : List Byte) (load : ph.type = elfProgLoad)
    (shorter : ¬ ph.memsz < ph.filesz) (below : ph.vaddr + ph.memsz < kernbase)
    (served : ¬ Refused (st.asks (ph.vaddr + ph.memsz)))
    (tables : AllTables (st.asks (ph.vaddr + ph.memsz))) :
    ph.judge file st =
      if (ph.behind st).sz = 0 then .rejected
      else if ¬ Aligned ph.vaddr then .panics "loaduvm: addr must be page aligned"
      else ph.place file (ph.behind st) := by
  rw [judge, if_neg (not_not.mpr load), if_neg, if_neg (not_not.mpr tables)]
  rintro (longer | high | refused)
  · exact shorter longer
  · exact BitVec.not_le.mpr below high
  · exact served refused

structure SegmentsLoaded (k : Image) (s : Mem) (d : Word) (file : List Byte) (phs : List Proghdr)
    (memory : Memory) (st : Stage) (s' : Mem) : Prop where
  ready : Ready k s d st s'
  image : s'.userMemory d = phs.foldl (Proghdr.load file) memory

theorem wp_loadSegments {post : Option Word → Mem → Prop} (count : Nat) {off : Word}
    (ready : Ready k s d st s₁) (size : file.length < 2 ^ 32)
    (failed : judge file count off st = .rejected → ∀ s', Fresh k s d s' → post none s')
    (panics : ∀ message, judge file count off st = .panics message → fault (.panic message))
    (loose : judge file count off st = .strays ∨ judge file count off st = .denied →
      (∀ r s', post r s') ∧ ∀ stopped, fault stopped)
    (done : ∀ st' s', judge file count off st = .loaded st' →
      SegmentsLoaded k s d file (headers file count off) (s₁.userMemory d) st' s' →
      post (some st'.sz) s') :
    Wp (loadSegments k d file count off st.sz) post fault s₁ := by
  induction count generalizing s₁ st off with
  | zero => exact done st s₁ rfl ⟨ready, rfl⟩
  | succ count ih =>
    rw [loadSegments]
    simp only
    by_cases short : (readi file off proghdrSize).1 ≠ proghdrSize.toNat
    · rw [if_pos short]
      exact failed (if_neg short) s₁ ready.filling.fresh
    rw [headers_succ (not_not.mp short)] at done
    rw [judge_succ (not_not.mp short)] at failed panics loose done
    rw [if_neg short]
    generalize Proghdr.ofBytes (readi file off proghdrSize).2 = ph at *
    by_cases other : ph.type ≠ elfProgLoad
    · have skipped : ph.load file (s₁.userMemory d) = s₁.userMemory d := if_neg other
      have verdict : ph.judge file st = .loaded st := if_pos other
      rw [verdict] at failed panics loose done
      rw [if_pos other]
      refine ih ready failed panics loose fun st' s' judged loaded => ?_
      exact done st' s' judged ⟨loaded.ready, by rw [loaded.image, List.foldl_cons, skipped]⟩
    have load := not_not.mp other
    rw [if_neg other]
    by_cases longer : ph.memsz < ph.filesz
    · have verdict : ph.judge file st = .rejected := by
        rw [Proghdr.judge, if_neg other, if_pos (.inl longer)]
      rw [verdict] at failed
      rw [if_pos longer]
      exact failed rfl s₁ ready.filling.fresh
    rw [if_neg longer, wp_bind]
    refine wp_fillMore ready (fun s' fresh failing => ?_) (fun below served untabled r s' => ?_)
      fun below served tables s₂ ready₂ memory _ => ?_
    · have verdict : ph.judge file st = .rejected := by
        rw [Proghdr.judge, if_neg other, if_pos (.inr failing)]
      rw [verdict] at failed
      rw [if_pos rfl]
      exact failed rfl s' fresh
    · have verdict : ph.judge file st = .denied := by
        rw [Proghdr.judge, if_neg other, if_neg, if_pos untabled]
        rintro (longer' | high | refused)
        · exact longer longer'
        · exact BitVec.not_le.mpr below high
        · exact served refused
      rw [verdict] at loose
      obtain ⟨all, any⟩ := loose (.inr rfl)
      exact wp_of_forall (fun r s' _ => all r s') fun stopped _ => any stopped
    have verdict := ph.judge_had file load longer below served tables
    have ready₃ : Ready k s d (ph.behind st) s₂ :=
      ⟨ready₂.filling, ready₂.all, ready₂.small, ready₂.present, ready₂.grants⟩
    show Wp (if (ph.behind st).sz = 0 then _ else _) post fault s₂
    by_cases zero : (ph.behind st).sz = 0
    · rw [if_pos zero] at verdict ⊢
      rw [verdict] at failed
      exact failed rfl s₂ ready₂.filling.fresh
    rw [if_neg zero] at verdict ⊢
    rw [wp_bind]
    by_cases crooked : ¬ Aligned ph.vaddr
    · rw [if_pos crooked] at verdict
      rw [verdict] at panics
      rw [loaduvm, if_pos fun even => crooked (aligned_iff.mpr even), wp_throw]
      exact panics _ rfl
    rw [if_neg crooked] at verdict
    rw [verdict] at failed panics loose done
    refine wp_loaduvm ready₃ (not_not.mp crooked) size (fun judged s₃ fresh => ?_)
      (fun message judged => ?_) (fun judged => ?_) fun judged s₃ ready₄ written => ?_
    · rw [judged] at failed
      rw [if_pos (by decide)]
      exact failed rfl s₃ fresh
    · rw [judged] at panics
      exact panics message rfl
    · rw [judged] at loose
      obtain ⟨all, any⟩ := loose (.inl rfl)
      exact ⟨fun _ _ => wp_of_forall (fun r s' _ => all r s') fun stopped _ => any stopped, any⟩
    · rw [judged] at failed panics loose done
      rw [if_neg (by decide)]
      show Wp (loadSegments k d file count (off + proghdrSize) (ph.behind st).sz) post fault s₃
      refine ih ready₄ failed panics loose fun st' s₄ judged' loaded => ?_
      refine done st' s₄ judged' ⟨loaded.ready, ?_⟩
      rw [loaded.image, List.foldl_cons, written, memory, Proghdr.load, if_pos load]

theorem Proghdr.judge_loaded (judged : ph.judge file st = .loaded st') :
    st'.wraps = false ↔ st.wraps = false ∧ ph.WellFormed file := by
  rw [Proghdr.judge] at judged
  split at judged
  · rename_i other
    cases judged
    exact ⟨fun flat => ⟨flat, fun load => absurd load other⟩, fun flat => flat.1⟩
  rename_i load
  split at judged
  · cases judged
  rename_i checked
  split at judged
  · cases judged
  split at judged
  · cases judged
  split at judged
  · cases judged
  rw [Proghdr.place] at judged
  split at judged
  · cases judged
  rename_i uncut
  split at judged
  · rename_i all
    cases judged
    obtain ⟨shorter, below, -⟩ := by simpa only [not_or] using checked
    rw [all] at uncut
    have inFile : ph.filesz = 0 ∨ ph.off.toNat + ph.filesz.toNat ≤ file.length := by
      by_cases none : ph.filesz.toNat = 0
      · exact .inl (BitVec.eq_of_toNat_eq none)
      · exact .inr (by omega)
    have ends : (ph.vaddr + ph.memsz).toNat < 2 ^ 31 := lt_def.mp (BitVec.not_le.mp below)
    rw [BitVec.toNat_add] at ends
    have sum : ¬ 2 ^ 32 ≤ ph.vaddr.toNat + ph.memsz.toNat ↔
        ph.vaddr.toNat + ph.memsz.toNat < 2 ^ 31 := by
      omega
    rw [Proghdr.behind, Bool.or_eq_false_iff, decide_eq_false_iff_not, sum]
    refine and_congr_right fun _ => ⟨fun user _ => ⟨BitVec.not_lt.mp shorter, user, inFile⟩,
      fun wellFormed => (wellFormed (not_not.mp load)).2.1⟩
  · split at judged
    · cases judged
    · split at judged <;> cases judged

theorem judge_loaded (count : Nat) {off : Word} (judged : judge file count off st = .loaded st') :
    (headers file count off).length = count ∧
      (st'.wraps = false ↔
        st.wraps = false ∧ ∀ ph ∈ headers file count off, ph.WellFormed file) := by
  induction count generalizing st off with
  | zero =>
    cases judged
    exact ⟨rfl, fun flat => ⟨flat, by rintro _ ⟨⟩⟩, fun flat => flat.1⟩
  | succ count ih =>
    by_cases short : (readi file off proghdrSize).1 = proghdrSize.toNat
    · rw [judge_succ short] at judged
      rw [headers_succ short, List.forall_mem_cons, ← and_assoc]
      cases first : (Proghdr.ofBytes (readi file off proghdrSize).2).judge file st with
      | loaded st₁ =>
        rw [first] at judged
        obtain ⟨length, later⟩ := ih judged
        rw [← Proghdr.judge_loaded first, later]
        exact ⟨by rw [List.length_cons, length], Iff.rfl⟩
      | _ =>
        rw [first] at judged
        cases judged
    · rw [judge, if_neg short] at judged
      cases judged

namespace Stage

variable (st : Stage)

def top : Word := pgRoundUp st.sz + 2 * pgsize

theorem top_toNat (small : st.sz < kernbase) : st.top.toNat = firstPage st.sz + 8192 := by
  have limit : st.sz.toNat < 2 ^ 31 := lt_def.mp small
  have rounded : (pgRoundUp st.sz).toNat = firstPage st.sz := pgRoundUp_toNat (by omega)
  have size : (pgRoundUp st.sz + 2 * pgsize).toNat = firstPage st.sz + 8192 := by
    rw [BitVec.toNat_add, rounded, firstPage]
    show (_ + 8192) % 2 ^ 32 = _
    omega
  exact size

theorem top_eq : st.top = pgRoundUp st.sz + 2 * pgsize := rfl

attribute [irreducible] top

def rounded : Stage := { st with sz := pgRoundUp st.sz }

def stacked : Stage := st.rounded.grow st.top

def Full : Prop := kernbase ≤ st.top ∨ Refused (st.rounded.asks st.top)

def Tabled : Prop := AllTables (st.rounded.asks st.top)

end Stage

theorem requests_plenty (present : PtIndex → Bool) (pages : List PtIndex)
    (grants : Stream' Bool) {spare : Nat}
    (plenty : ∀ n < spare + 2 * pages.length, grants.get n = true) :
    ¬ Refused (requests present pages grants) ∧ AllTables (requests present pages grants) ∧
      ∀ n < spare, (behind present pages grants).2.get n = true := by
  induction pages generalizing present grants with
  | nil => exact ⟨by rintro ⟨_, ⟨⟩, -⟩, by rintro _ ⟨⟩, plenty⟩
  | cons i rest ih =>
    rw [List.length_cons, Nat.mul_succ] at plenty
    have first : grants.head = true := plenty 0 (by omega)
    have second : grants.tail.head = true := plenty 1 (by omega)
    rw [requests, behind, if_pos first, if_pos first]
    by_cases there : present i = true
    · rw [if_pos there, if_pos there]
      obtain ⟨served, tables, later⟩ := ih present grants.tail
        fun n less => plenty (n + 1) (by omega)
      exact ⟨by simp [first, served], by simp [tables], later⟩
    · rw [if_neg there, if_neg there, if_pos second]
      obtain ⟨served, tables, later⟩ := ih (Function.update present i true)
        grants.tail.tail fun n less => plenty (n + 2) (by omega)
      exact ⟨by simp [first, served], by simp [second, tables], later⟩

@[simp]
theorem indices_length (count : Nat) (a : Word) : (indices count a).length = count := by
  induction count generalizing a with
  | zero => rfl
  | succ count ih => rw [indices, List.length_cons, ih]

def Stage.Plenty (st : Stage) (count : Nat) : Prop := ∀ n < count, st.grants.get n = true

theorem Stage.Plenty.grow {spare pages : Nat} (plenty : st.Plenty (spare + 2 * pages))
    (newsz : Word) (few : pagesUpTo (pgRoundUp st.sz) newsz ≤ pages) :
    ¬ Refused (st.asks newsz) ∧ AllTables (st.asks newsz) ∧ (st.grow newsz).Plenty spare := by
  refine requests_plenty _ _ _ fun n less => plenty n ?_
  rw [Stage.pages, indices_length] at less
  omega

theorem Stage.Plenty.stack (plenty : st.Plenty 4) (small : st.sz < kernbase) :
    ¬ Refused (st.rounded.asks st.top) ∧ st.Tabled := by
  have limit : st.sz.toNat < 2 ^ 31 := lt_def.mp small
  have rounded : (pgRoundUp st.sz).toNat = firstPage st.sz := pgRoundUp_toNat (by omega)
  have again : (pgRoundUp (pgRoundUp st.sz)).toNat = firstPage st.sz := by
    rw [pgRoundUp_toNat] <;> rw [rounded, firstPage] <;> omega
  have plenty' : st.rounded.Plenty (0 + 2 * 2) := plenty
  obtain ⟨served, tables, -⟩ := plenty'.grow st.top (by
    show pagesUpTo (pgRoundUp (pgRoundUp st.sz)) st.top ≤ 2
    rw [pagesUpTo, again, st.top_toNat small]
    omega)
  exact ⟨served, tables⟩

end Vm

end Xv6
