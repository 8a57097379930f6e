import Xv6.Library.Tiling
import Xv6.Vm.Copy
import Xv6.Vm.Verdict

/-!
# The stack of a new program

`exec` makes two pages above the segments and takes the user's access to the lower one. It copies
the argument strings and the table of pointers to them downwards from the new size. What it copies
fits in the upper page, because `copyout` stops at the page that the user may not access; so the
strings, the array and the header lie one below the other and each keeps its bytes.
-/

namespace Xv6

open BitVec (toNat_ofNat toNat_add toNat_sub eq_of_toNat_eq lt_def ofNat le_def)
open Bytes (Byte toBytes)
open ByteSpace (Memory)
open Program
open Tiling (Extent)

namespace Vm

/-- The strings lie below an address at the given places, each below the one before, down to
another address. -/
def Laid (memory : Memory) : List (List Byte) → List Word → Nat → Nat → Prop
  | [], [], high, low => low ≤ high
  | arg :: rest, place :: more, high, low =>
    place.toNat + arg.length + 1 ≤ high ∧
      ByteSpace.read memory place (arg.length + 1) = arg ++ [0] ∧
      Laid memory rest more place.toNat low
  | _, _, _, _ => False

namespace Laid

variable {memory memory' : Memory} {argv : List (List Byte)} {places : List Word} {high low : Nat}

section

variable (laid : Laid memory argv places high low)
include laid

theorem ordered : low ≤ high := by
  induction argv generalizing places high with
  | nil =>
    cases places with
    | nil => exact laid
    | cons => exact laid.elim
  | cons arg rest ih =>
    cases places with
    | nil => exact laid.elim
    | cons place more =>
      have below := ih laid.2.2
      have first := laid.1
      omega

theorem length_eq : places.length = argv.length := by
  induction argv generalizing places high with
  | nil =>
    cases places with
    | nil => rfl
    | cons => exact laid.elim
  | cons arg rest ih =>
    cases places with
    | nil => exact laid.elim
    | cons place more => rw [List.length_cons, List.length_cons, ih laid.2.2]

theorem congr (limit : high ≤ 2 ^ 32) (same : ∀ x : Word, low ≤ x.toNat → memory' x = memory x) :
    Laid memory' argv places high low := by
  induction argv generalizing places high with
  | nil => cases places <;> exact laid
  | cons arg rest ih =>
    cases places with
    | nil => exact laid.elim
    | cons place more =>
      obtain ⟨first, bytes, later⟩ := laid
      have below := later.ordered
      refine ⟨first, ?_, ih later (by omega)⟩
      rw [← bytes]
      refine ByteSpace.read_congr fun n inside => same _ ?_
      rw [toNat_add, toNat_ofNat]
      omega

theorem strings (limit : high ≤ 2 ^ 32) (free : ∀ arg ∈ argv, (0 : Byte) ∉ arg) :
    places.map (ByteSpace.string memory (2 ^ 32)) = argv := by
  induction argv generalizing places high with
  | nil =>
    cases places with
    | nil => rfl
    | cons => exact laid.elim
  | cons arg rest ih =>
    cases places with
    | nil => exact laid.elim
    | cons place more =>
      obtain ⟨first, bytes, later⟩ := laid
      obtain ⟨plain, others⟩ := List.forall_mem_cons.mp free
      rw [List.map_cons, ih later (by omega) others]
      congr 1
      exact ByteSpace.string_of_read plain (by omega) bytes

end

def extent (memory : Memory) (place : Word) : Extent :=
  ⟨place.toNat, (ByteSpace.string memory (2 ^ 32) place).length + 1⟩

section

variable (laid : Laid memory argv places high low) (limit : high ≤ 2 ^ 32)
  (free : ∀ arg ∈ argv, (0 : Byte) ∉ arg)
include laid limit free

theorem between :
    ∀ part ∈ places.map (extent memory), low ≤ part.start ∧ part.start + part.bytes ≤ high := by
  induction argv generalizing places high with
  | nil =>
    cases places with
    | nil => exact fun _ member => absurd member List.not_mem_nil
    | cons => exact laid.elim
  | cons arg rest ih =>
    cases places with
    | nil => exact laid.elim
    | cons place more =>
      have found := laid.strings limit free
      obtain ⟨first, -, later⟩ := laid
      have below := later.ordered
      rw [List.map_cons, List.cons.injEq] at found
      rw [List.map_cons, List.forall_mem_cons, extent, found.1]
      refine ⟨⟨below, first⟩, fun part member => ?_⟩
      have inside := ih later (by omega) (List.forall_mem_cons.mp free).2 part member
      exact ⟨inside.1, by omega⟩

theorem disjoint : (places.map (extent memory)).Pairwise Extent.Disjoint := by
  induction argv generalizing places high with
  | nil =>
    cases places with
    | nil => exact .nil
    | cons => exact laid.elim
  | cons arg rest ih =>
    cases places with
    | nil => exact laid.elim
    | cons place more =>
      obtain ⟨first, -, later⟩ := laid
      have others := (List.forall_mem_cons.mp free).2
      rw [List.map_cons, List.pairwise_cons]
      refine ⟨fun part member => ?_, ih later (by omega) others⟩
      have inside := later.between (by omega) others part member
      exact (Extent.disjoint_of_before inside.2).symm

end

end Laid

variable {k : Image} {s s₁ s₂ : Mem} {d sz top va sp : Word} {fault : Fault → Prop}

theorem target_clear (e : Word) : target (e &&& ~~~pteU) = target e := by
  have present : HasFlag pteP (e &&& ~~~pteU) ↔ HasFlag pteP e := by
    rw [HasFlag, HasFlag, BitVec.and_assoc, show ~~~pteU &&& pteP = pteP by decide]
  have address : pteAddr (e &&& ~~~pteU) = pteAddr e := by
    rw [pteAddr, pteAddr, BitVec.and_assoc, show ~~~pteU &&& ~~~0xFFF#32 = ~~~0xFFF#32 by decide]
  rw [target, target, address]
  simp only [present]

theorem wp_clearpteu {post : Unit → Mem → Prop} {b : Word} (filling : Filling k s d sz s₁)
    (page : Aligned b) (user : b < kernbase) (mapped : s₁.frameOf d b ≠ none)
    (done : ∀ s', Filling k s d sz s' → s'.tableAt d = s₁.tableAt d →
      (∀ c, Aligned c → s'.entry d c =
        if c = b then s₁.entry d b &&& ~~~pteU else s₁.entry d c) → post () s') :
    Wp (clearpteu d b) post fault s₁ := by
  have space := filling.fresh.space
  obtain ⟨pgtab, there⟩ := Mem.exists_table mapped
  have entry : s₁.entry d b = s₁.page pgtab (ptx b) := Mem.pte_of_table there
  rw [clearpteu, wp_bind, wp_walk_there there]
  simp only [loadEntry, storeEntry, setPage, wp_bind, wp_get, wp_pure, wp_modify]
  rw [← entry]
  have after := space.setFlags there (target_clear (s₁.entry d b))
  have frames : ∀ c, Aligned c →
      (s₁.setEntry pgtab (ptx b) (s₁.entry d b &&& ~~~pteU)).frameOf d c = s₁.frameOf d c := by
    intro c page'
    rw [Mem.frameOf, space.entry_setEntry page page' there]
    split
    · rename_i same
      rw [target_clear, same]
      rfl
    · rfl
  refine done (s₁.setEntry pgtab (ptx b) (s₁.entry d b &&& ~~~pteU))
    ⟨filling.fresh.grow (.setEntry space there after) ?_, ?_, ?_⟩
    (space.tableAt_setEntry there) fun c page' => space.entry_setEntry page page' there
  · intro c v page' low frame
    rw [frames c page'] at frame
    exact filling.fresh.held _ v (Space.held_of_frameOf low frame)
  · intro c page' low
    rw [frames c page']
    exact filling.maps c page' low
  · intro c page' above
    have differ : c ≠ b := by
      rintro rfl
      exact BitVec.not_lt.mpr above user
    rw [space.entry_setEntry page page' there, if_neg differ]
    exact filling.kernel c page' above

variable {length : Nat}

theorem Filling.table_below {a : Word} (filling : Filling k s d sz s₁) (small : sz < kernbase)
    (below : a.toNat < firstPage sz) : s₁.tableAt d (pdx a) ≠ none := by
  have limit : sz.toNat < 2 ^ 31 := lt_def.mp small
  have rounded := pgRoundDown_toNat (a := a)
  have user : pgRoundDown a < kernbase := by
    rw [lt_def, rounded]
    rw [firstPage] at below
    show _ < 2 ^ 31
    omega
  have mapped : s₁.frameOf d (pgRoundDown a) ≠ none :=
    (filling.maps _ pgRoundDown_aligned user).mpr (by omega)
  rw [Mem.frameOf, ← entry_page] at mapped
  obtain ⟨pgtab, there⟩ := Mem.exists_table mapped
  rw [there]
  exact Option.some_ne_none pgtab

theorem and_not_three (x : Word) : (x &&& ~~~3).toNat = x.toNat / 4 * 4 := by
  have bits : ∀ i : Fin 32, (~~~3#32).getLsbD i.val = decide (2 ≤ i.val) := by decide
  have shifted : x &&& ~~~3#32 = (x >>> 2) <<< 2 := by
    apply BitVec.eq_of_getLsbD_eq
    intro i bound
    rw [BitVec.getLsbD_and, bits ⟨i, bound⟩, BitVec.getLsbD_shiftLeft,
      BitVec.getLsbD_ushiftRight]
    by_cases low : i < 2
    · simp [low]
    · simp [low, bound, show 2 ≤ i by omega, show 2 + (i - 2) = i by omega]
  have bound := x.isLt
  show (x &&& ~~~3#32).toNat = _
  rw [shifted, BitVec.toNat_shiftLeft, BitVec.toNat_ushiftRight, Nat.shiftLeft_eq,
    Nat.shiftRight_eq_div_pow]
  exact Nat.mod_eq_of_lt (by omega)

/-- The page below a size is accessible to the user, and the page under it is not. -/
structure Stack (s : Mem) (d top : Word) : Prop where
  page : Aligned top
  room : 8192 ≤ top.toNat
  accessible : ∀ a : Word, top.toNat - 4096 ≤ a.toNat → a < top → s.userFrame d a ≠ none
  guard : ∀ a : Word, top.toNat - 8192 ≤ a.toNat → a.toNat < top.toNat - 4096 →
    s.userFrame d a = none

theorem Stack.of_clear {guard top : Word} (filling : Filling k s d top s₁) (all : AllUser s₁ d)
    (small : top < kernbase) (page : Aligned guard) (place : top.toNat = guard.toNat + 8192)
    (entries : ∀ c, Aligned c → s₂.entry d c =
      if c = guard then s₁.entry d guard &&& ~~~pteU else s₁.entry d c) : Stack s₂ d top := by
  have whole := aligned_iff.mp page
  refine ⟨aligned_iff.mpr (by omega), by omega, fun a low high => ?_, fun a low high => ?_⟩
  · have rounded := pgRoundDown_toNat (a := a)
    have other : pgRoundDown a ≠ guard := by
      rintro rfl
      omega
    have same : s₂.entry d a = s₁.entry d a := by
      rw [entry_page, entries _ pgRoundDown_aligned, if_neg other, ← entry_page]
    obtain ⟨seen, mapped⟩ := filling.userFrame_eq all high small
    rw [Mem.userFrame, Mem.frameOf, same, ← Mem.frameOf, ← Mem.userFrame, seen]
    exact mapped
  · have below : top.toNat - 4096 = guard.toNat + 4096 := by omega
    have under : top.toNat - 8192 = guard.toNat := by rw [place, Nat.add_sub_cancel]
    rw [below] at high
    rw [under] at low
    have here : pgRoundDown a = guard := by
      apply eq_of_toNat_eq
      rw [pgRoundDown_toNat]
      omega
    have denied : ¬ HasFlag pteU (s₂.entry d a) := by
      rw [entry_page, here, entries _ page, if_pos rfl, HasFlag, BitVec.and_assoc,
        show ~~~pteU &&& pteU = 0 by decide]
      exact not_not.mpr BitVec.and_zero
    rw [Mem.userFrame, if_neg denied]

variable {st : Stage}

theorem wp_makeStack_pages {post : Option (Word × Word) → Mem → Prop} {argv : List (List Byte)}
    (ready : Ready k s d st s₁) (failed : ∀ s', Fresh k s d s' → st.Full → post none s')
    (denied : ¬ st.Full → ¬ st.Tabled → (∀ r s', post r s') ∧ ∀ stopped, fault stopped)
    (push : ∀ s', ¬ st.Full → st.Tabled → st.top < kernbase → Filling k s d st.top s' →
      Stack s' d st.top → s'.present d = st.stacked.present →
      (∀ i pgtab, s₁.tableAt d i = some pgtab → s'.tableAt d i = some pgtab) →
      Wp (pushStack d argv st.top) (fun r s'' => post (r.map fun sp => (st.top, sp)) s'')
        fault s') :
    Wp (makeStack k d argv st.sz) post fault s₁ := by
  have limit : st.sz.toNat < 2 ^ 31 := lt_def.mp ready.small
  have rounded : (pgRoundUp st.sz).toNat = firstPage st.sz := pgRoundUp_toNat (by omega)
  have sum : st.top.toNat = firstPage st.sz + 8192 := st.top_toNat ready.small
  simp only [makeStack, wp_bind]
  rw [← st.top_eq]
  by_cases high : st.top ≥ kernbase
  · rw [allocuvm, if_pos high, wp_pure, if_pos rfl]
    exact failed s₁ ready.filling.fresh (.inl high)
  have top : st.top.toNat < 2 ^ 31 := lt_def.mp (BitVec.not_le.mp high)
  have ready₁ : Ready k s d st.rounded s₁ := by
    refine ⟨ready.filling.round ready.small, ready.all, ?_, ready.present, ready.grants⟩
    show pgRoundUp st.sz < kernbase
    rw [lt_def, rounded]
    show _ < 2 ^ 31
    omega
  have size : (st.rounded.grow st.top).sz = st.top := by
    refine if_neg ?_
    show ¬ st.top < pgRoundUp st.sz
    rw [lt_def, sum, rounded]
    omega
  rw [show pgRoundUp st.sz = st.rounded.sz from rfl]
  refine wp_fillMore ready₁ (fun s₂ fresh full => ?_) (fun below served untabled r s₂ => ?_)
    fun below served tabled s₂ ready₂ _ tables₂ => ?_
  · rw [if_pos rfl]
    exact failed s₂ fresh full
  · have room : ¬ st.Full := not_or.mpr ⟨BitVec.not_le.mpr below, served⟩
    obtain ⟨all, any⟩ := denied room untabled
    exact wp_of_forall (fun r s' _ => all r s') fun stopped _ => any stopped
  · have room : ¬ st.Full := not_or.mpr ⟨BitVec.not_le.mpr below, served⟩
    have filling₂ : Filling k s d st.top s₂ := size ▸ ready₂.filling
    have guard : (st.top - 2 * pgsize).toNat = firstPage st.sz := by
      rw [toNat_sub]
      show (2 ^ 32 - 8192 + st.top.toNat) % 2 ^ 32 = _
      omega
    have page : Aligned (st.top - 2 * pgsize) := by
      rw [aligned_iff, guard, firstPage]
      omega
    have user : st.top - 2 * pgsize < kernbase := by
      rw [lt_def, guard]
      exact (show firstPage st.sz < 2 ^ 31 by omega)
    have mapped : s₂.frameOf d (st.top - 2 * pgsize) ≠ none := by
      refine (filling₂.maps _ page user).mpr ?_
      rw [lt_firstPage_iff page, guard]
      omega
    have nonzero : st.top ≠ 0 := by
      intro zero
      rw [zero] at sum
      exact absurd sum (by show 0 ≠ _; omega)
    rw [size, if_neg nonzero, wp_bind]
    refine wp_clearpteu filling₂ page user mapped fun s₃ filling₃ tables entries => ?_
    have stack := Stack.of_clear filling₂ ready₂.all below page (by rw [guard, sum]) entries
    rw [wp_bind]
    refine (push s₃ room tabled below filling₃ stack ?_ fun i pgtab there => ?_).imp
      fun r s₄ holds => ?_
    · rw [Stage.stacked, ← ready₂.present]
      funext i
      rw [Mem.present, Mem.present, tables]
    · rw [tables]
      exact tables₂ i pgtab there
    · cases r <;> exact holds

theorem Stack.place {length slack : Nat} (stack : Stack s d top)
    (low : top.toNat - 4096 ≤ sp.toNat) (high : sp.toNat ≤ top.toNat) (positive : 0 < length)
    (short : length < 2 ^ 32) (few : slack ≤ 3) (ends : va + ofNat 32 (length + slack) = sp)
    (reach : ∀ n < length, s.userFrame d (va + ofNat 32 n) ≠ none) :
    va.toNat + length + slack = sp.toNat ∧ top.toNat - 4096 ≤ va.toNat := by
  have number : (va.toNat + (length + slack)) % 2 ^ 32 = sp.toNat := by
    rw [← ends, toNat_add, toNat_ofNat]
    omega
  have room := stack.room
  have size : ∃ base, top.toNat = base + 8192 := ⟨top.toNat - 8192, by omega⟩
  obtain ⟨base, size⟩ := size
  have below : top.toNat - 4096 = base + 4096 := by omega
  have under : top.toNat - 8192 = base := by rw [size, Nat.add_sub_cancel]
  rw [below] at low ⊢
  have guarded : ∀ n < length, ∀ x, (va.toNat + n) % 2 ^ 32 = x → base ≤ x →
      base + 4096 ≤ x := by
    intro n inside x here above
    have address : (va + ofNat 32 n).toNat = x := by
      rw [toNat_add, toNat_ofNat, ← here]
      omega
    refine Nat.le_of_not_lt fun less => reach n inside (stack.guard _ ?_ ?_)
    · rw [address, under]
      exact above
    · rw [address, below]
      exact less
  -- the last byte is in the stack page, and the guard page is not crossed on the way down
  have last : base + 4096 + 1 + slack ≤ sp.toNat := by
    have bound := guarded (length - 1) (by omega) (sp.toNat - (1 + slack)) (by omega) (by omega)
    omega
  have fits : base + 4096 + length + slack ≤ sp.toNat := by
    refine Nat.le_of_not_lt fun past => ?_
    have above : sp.toNat ≤ base + 4095 + length + slack := by omega
    obtain ⟨n, index⟩ := Nat.exists_eq_add_of_le above
    have crossed := guarded n (by omega) (base + 4095) (by omega) (by omega)
    omega
  have bound := va.isLt
  omega

theorem Stack.walkable {length slack : Nat} (filling : Filling k s d top s₁)
    (stack : Stack s₁ d top) (small : top < kernbase)
    (high : sp.toNat ≤ top.toNat) (short : length ≤ 2 ^ 31) (few : slack ≤ 3)
    (ends : va + ofNat 32 (length + slack) = sp) (table : s₁.tableAt d (pdx va) ≠ none) :
    Walkable s₁ d va length := by
  have limit : top.toNat < 2 ^ 31 := lt_def.mp small
  have room := stack.room
  have page := aligned_iff.mp stack.page
  have number : (va.toNat + (length + slack)) % 2 ^ 32 = sp.toNat := by
    rw [← ends, toNat_add, toNat_ofNat]
    omega
  intro n inside before
  cases n with
  | zero => rwa [BitVec.add_zero]
  | succ n =>
    obtain ⟨v, frame⟩ := Option.ne_none_iff_exists'.mp (before n (Nat.lt_succ_self n))
    have seen : (va + ofNat 32 n).toNat < firstPage top :=
      Nat.lt_of_not_le fun above => by
        rw [filling.userFrame_none above] at frame
        cases frame
    refine filling.table_below small ?_
    rw [toNat_add, toNat_ofNat] at seen ⊢
    rw [firstPage] at seen ⊢
    omega

theorem wp_pushBytes {post : Int → Mem → Prop} {buf : List Byte} (sp : Word) (slack : Nat)
    (filling : Filling k s d top s₁) (stack : Stack s₁ d top)
    (low : top.toNat - 4096 ≤ sp.toNat) (high : sp.toNat ≤ top.toNat) (some : buf ≠ [])
    (short : buf.length < 2 ^ 32) (few : slack ≤ 3)
    (ends : va + ofNat 32 (buf.length + slack) = sp)
    (small : top < kernbase)
    (stuck : ¬ top.toNat - 4096 + buf.length + slack ≤ sp.toNat →
      s₁.tableAt d (pdx va) = none ∨ 2 ^ 31 < buf.length → fault .nullDeref)
    (failed : ∀ s', Fresh k s d s' → ¬ top.toNat - 4096 + buf.length + slack ≤ sp.toNat →
      s₁.tableAt d (pdx va) ≠ none → post (-1) s')
    (done : ∀ s', Filling k s d top s' → Stack s' d top → s'.tableAt d = s₁.tableAt d →
      s'.userMemory d = ByteSpace.write (s₁.userMemory d) va buf →
      va.toNat + buf.length + slack = sp.toNat → top.toNat - 4096 ≤ va.toNat → post 0 s') :
    Wp (copyout d va buf) post fault s₁ := by
  have room := stack.room
  have bound := va.isLt
  have limit := top.isLt
  have positive := List.length_pos_iff.mpr some
  -- with room for the bytes all addresses are in the stack page
  have reach : top.toNat - 4096 + buf.length + slack ≤ sp.toNat → ∀ n < buf.length,
      s₁.userFrame d (va + ofNat 32 n) ≠ none := by
    intro enough n inside
    have number : (va.toNat + (buf.length + slack)) % 2 ^ 32 = sp.toNat := by
      rw [← ends, toNat_add, toNat_ofNat]
      omega
    have here : (va + ofNat 32 n).toNat = va.toNat + n := by
      rw [toNat_add, toNat_ofNat]
      omega
    refine stack.accessible _ (by omega) (lt_def.mpr (by omega))
  refine (wp_copyout filling.closed short fun missing => ?_).imp ?_
  · by_cases enough : top.toNat - 4096 + buf.length + slack ≤ sp.toNat
    · exact absurd (fun n inside _ => table_of_userFrame (reach enough n inside)) missing
    · refine stuck enough (or_iff_not_imp_left.mpr fun table => Nat.lt_of_not_le fun tame => ?_)
      exact missing (stack.walkable filling small high tame few ends table)
  rintro r s' ⟨front, part, copied, stops⟩
  have table := stops.walkable copied.accessible 0 positive fun _ less =>
    absurd less (Nat.not_lt_zero _)
  rw [BitVec.add_zero] at table
  rcases stops with ⟨rfl, all⟩ | ⟨rfl, less, none, -⟩
  · obtain rfl : front = buf := part.eq_of_length all
    obtain ⟨place, inside⟩ := stack.place low high positive short few ends copied.accessible
    refine done s' (filling.copied copied) ⟨stack.page, room, ?_, ?_⟩ copied.tables copied.memory
      place inside
    · rw [copied.userFrame]
      exact stack.accessible
    · rw [copied.userFrame]
      exact stack.guard
  · exact failed s' (filling.copied copied).fresh (fun enough => reach enough _ less none) table

/-- The bytes that the strings take on the stack: each with its zero, rounded up to words. -/
def argBytes (argv : List (List Byte)) : Nat := (argv.map fun arg => (arg.length + 4) / 4 * 4).sum

theorem string_ends (word : sp.toNat % 4 = 0) (short : length + 1 < 2 ^ 32) :
    ((sp - ofNat 32 (length + 1)) &&& ~~~3) + ofNat 32 ((length + 4) / 4 * 4) =
      sp := by
  have bound := sp.isLt
  apply eq_of_toNat_eq
  rw [toNat_add, and_not_three, toNat_sub, toNat_ofNat, toNat_ofNat]
  omega

/-- The first string that does not fit above an address goes to an address with a page table, or
there are too many before it. -/
def Pushable (present : PtIndex → Bool) (base : Nat) : List (List Byte) → Word → Nat → Prop
  | [], _, _ => True
  | arg :: rest, sp, argc =>
    let place := (sp - ofNat 32 (arg.length + 1)) &&& ~~~3
    maxArg ≤ argc ∨
      if base + (arg.length + 4) / 4 * 4 ≤ sp.toNat then Pushable present base rest place (argc + 1)
      else present (pdx place) = true

theorem wp_pushArgs_laid {post : Option (Word × List Word) → Mem → Prop} (argv : List (List Byte))
    {ustack : List Word} (filling : Filling k s d top s₁) (stack : Stack s₁ d top)
    (word : sp.toNat % 4 = 0) (low : top.toNat - 4096 ≤ sp.toNat) (high : sp.toNat ≤ top.toNat)
    (few : ustack.length ≤ maxArg) (short : ∀ arg ∈ argv, arg.length + 1 < 2 ^ 32)
    (small : top < kernbase)
    (stuck : ¬ top.toNat - 4096 + argBytes argv ≤ sp.toNat →
      ¬ (Pushable (s₁.present d) (top.toNat - 4096) argv sp ustack.length ∧
        ∀ arg ∈ argv, arg.length < 2 ^ 31) → fault .nullDeref)
    (failed : ∀ s', Fresh k s d s' → ¬ (ustack.length + argv.length ≤ maxArg ∧
      top.toNat - 4096 + argBytes argv ≤ sp.toNat) →
      Pushable (s₁.present d) (top.toNat - 4096) argv sp ustack.length → post none s')
    (done : ∀ sp' places s', Filling k s d top s' → Stack s' d top →
      s'.tableAt d = s₁.tableAt d → sp'.toNat % 4 = 0 →
      top.toNat - 4096 ≤ sp'.toNat → sp'.toNat + argBytes argv = sp.toNat →
      (ustack ++ places).length ≤ maxArg →
      Pushable (s₁.present d) (top.toNat - 4096) argv sp ustack.length →
      Laid (s'.userMemory d) argv places sp.toNat sp'.toNat →
      (∀ x : Word, sp.toNat ≤ x.toNat → s'.userMemory d x = s₁.userMemory d x) →
      post (some (sp', ustack ++ places)) s') :
    Wp (pushArgs d argv sp ustack) post fault s₁ := by
  induction argv generalizing s₁ sp ustack with
  | nil =>
    have same := done sp [] s₁ filling stack rfl word low rfl
    rw [List.append_nil] at same
    exact same few trivial (Nat.le_refl _) fun _ _ => rfl
  | cons arg rest ih =>
    obtain ⟨first, others⟩ := List.forall_mem_cons.mp short
    have bytes : argBytes (arg :: rest) = (arg.length + 4) / 4 * 4 + argBytes rest := rfl
    have length : (arg ++ [0]).length = arg.length + 1 := by simp
    have slack : arg.length + 1 + ((arg.length + 4) / 4 * 4 - (arg.length + 1)) =
        (arg.length + 4) / 4 * 4 := by
      omega
    rw [pushArgs]
    rw [bytes] at stuck failed done
    by_cases many : maxArg ≤ ustack.length
    · rw [if_pos many]
      refine failed s₁ filling.fresh (fun room => ?_) (.inl many)
      rw [List.length_cons] at room
      omega
    rw [if_neg many, wp_bind]
    refine wp_pushBytes sp ((arg.length + 4) / 4 * 4 - (arg.length + 1)) filling stack low high
      (by simp) (by omega) (by omega) ?_ small ?_ ?_ ?_
    · rw [length, slack]
      exact string_ends word first
    · rw [length, Nat.add_assoc, slack]
      refine fun past astray => stuck (fun room => past (by omega)) ?_
      rintro ⟨pushable, tame⟩
      rw [Pushable, if_neg past] at pushable
      have there := pushable.resolve_left many
      rcases astray with absent | long
      · rw [Mem.present, absent] at there
        cases there
      · have here := tame arg List.mem_cons_self
        omega
    · rw [length, Nat.add_assoc, slack]
      intro s' fresh past table
      rw [if_pos (by decide)]
      refine failed s' fresh (fun room => past (by omega)) (.inr ?_)
      rw [if_neg past, Mem.present, Option.isSome_iff_ne_none]
      exact table
    · rw [length, Nat.add_assoc, slack]
      intro s₂ filling₂ stack₂ tables written place inside
      have same : s₂.present d = s₁.present d := by
        funext i
        rw [Mem.present, Mem.present, tables]
      have fits : top.toNat - 4096 + (arg.length + 4) / 4 * 4 ≤ sp.toNat := by omega
      rw [Pushable, if_pos fits] at stuck failed done
      generalize (sp - ofNat 32 (arg.length + 1)) &&& ~~~3 = va at *
      rw [if_neg (by decide)]
      refine ih filling₂ stack₂ (by omega) inside (by omega) ?_ others (fun past => ?_) ?_ ?_
      · rw [List.length_append, List.length_singleton]
        omega
      · intro unsound
        rw [same, List.length_append, List.length_singleton] at unsound
        refine stuck (fun room => past (by omega)) fun safe => unsound ?_
        exact ⟨safe.1.resolve_left many, (List.forall_mem_cons.mp safe.2).2⟩
      · intro s' fresh past pushable
        rw [same, List.length_append, List.length_singleton] at pushable
        refine failed s' fresh (fun room => past ?_) (.inr pushable)
        rw [List.length_cons] at room
        rw [List.length_append, List.length_singleton]
        omega
      · intro sp' places s₃ filling₃ stack₃ tables₃ word₃ low₃ total few' pushable laid kept
        rw [List.append_assoc] at few' ⊢
        rw [same, List.length_append, List.length_singleton] at pushable
        refine done sp' ([va] ++ places) s₃ filling₃ stack₃ (tables₃.trans tables) word₃ low₃
          (by omega) few' (.inr pushable) ⟨by omega, ?_, laid⟩ fun x above => ?_
        · have limit := sp.isLt
          have stays : ByteSpace.read (s₃.userMemory d) va (arg.length + 1) =
              ByteSpace.read (s₂.userMemory d) va (arg.length + 1) := by
            refine ByteSpace.read_congr fun n inside => kept _ ?_
            rw [toNat_add, toNat_ofNat]
            omega
          rw [stays, written, ← length]
          exact ByteSpace.read_write (by omega)
        · have outside : (arg ++ [0]).length ≤ (x - va).toNat := by
            have bound := x.isLt
            rw [toNat_sub, length]
            omega
          rw [kept x (by omega), written, ByteSpace.write_outside outside]

/-- The arguments fit on the stack: there are not too many, and the strings with the header and the
array take a page at most. -/
def Fits (argv : List (List Byte)) : Prop :=
  argv.length ≤ maxArg ∧ argBytes argv + 4 * (argv.length + 4) ≤ 4096

def tableWords (places : List Word) (esp : Word) : List Word :=
  [0xFFFFFFFF, BitVec.ofNat 32 places.length, esp + 12] ++ places ++ [0]

/-- The stack as `exec` leaves it: the strings down to `sp`, and the words below them. -/
structure Built (memory : Memory) (argv : List (List Byte)) (places : List Word)
    (top sp esp : Word) : Prop where
  laid : Laid memory argv places top.toNat sp.toNat
  few : places.length ≤ maxArg
  table : ∀ n word, (tableWords places esp)[n]? = some word →
    ByteSpace.word memory (esp + BitVec.ofNat 32 (4 * n)) = word
  ends : esp.toNat + 4 * (places.length + 4) = sp.toNat
  low : top.toNat - 4096 ≤ esp.toNat

theorem wp_pushStack_built {post : Option Word → Mem → Prop} {argv : List (List Byte)}
    (filling : Filling k s d top s₁) (stack : Stack s₁ d top)
    (short : ∀ arg ∈ argv, arg.length + 1 < 2 ^ 32) (small : top < kernbase)
    (stuck : ¬ Fits argv → ¬ (Pushable (s₁.present d) (top.toNat - 4096) argv top 0 ∧
      ∀ arg ∈ argv, arg.length < 2 ^ 31) → fault .nullDeref)
    (failed : ∀ s', Fresh k s d s' → ¬ Fits argv →
      Pushable (s₁.present d) (top.toNat - 4096) argv top 0 → post none s')
    (done : ∀ places sp esp s', Fits argv → Filling k s d top s' → Stack s' d top →
      s'.tableAt d = s₁.tableAt d → Built (s'.userMemory d) argv places top sp esp →
      post (some esp) s') :
    Wp (pushStack d argv top) post fault s₁ := by
  have whole := aligned_iff.mp stack.page
  have room := stack.room
  rw [pushStack, wp_bind]
  refine wp_pushArgs_laid argv filling stack (by omega) (by omega) (Nat.le_refl _) (Nat.zero_le _)
    short small (fun past => stuck fun fits => past ?_)
    (fun s' fresh past => failed s' fresh fun fits => past ?_) ?_
  · have total := fits.2
    omega
  · have total := fits.2
    exact ⟨by rw [List.length_nil, Nat.zero_add]; exact fits.1, by omega⟩
  intro sp places s₂ filling₂ stack₂ tables₂ word low total few pushable laid kept
  have few' : places.length ≤ 32 := few
  have count := laid.length_eq
  have bound := sp.isLt
  have size : ((3 + ofNat 32 places.length + 1) * 4 : Word).toNat =
      4 * (places.length + 4) := by
    bv_omega
  simp only [List.nil_append, wp_bind]
  generalize esp_eq : sp - (3 + ofNat 32 places.length + 1) * 4 = esp
  have array : sp - (ofNat 32 places.length + 1) * 4 = esp + 12 := by
    rw [← esp_eq]
    bv_omega
  have words : [0xFFFFFFFF, ofNat 32 places.length,
      sp - (ofNat 32 places.length + 1) * 4] ++ places ++ [0] = tableWords places esp := by
    rw [array]
    rfl
  have length : ((tableWords places esp).flatMap toBytes).length = 4 * (places.length + 4) := by
    rw [Bytes.length_flatMap_toBytes, tableWords, List.length_append, List.length_append]
    show 4 * (3 + places.length + 1) = _
    omega
  rw [words]
  refine wp_pushBytes sp 0 filling₂ stack₂ low (by omega) ?_ (by omega) (by omega) ?_ small ?_ ?_ ?_
  · rw [← List.length_pos_iff, length]
    omega
  · rw [length, ← esp_eq]
    apply eq_of_toNat_eq
    rw [toNat_add, toNat_sub, size, toNat_ofNat]
    omega
  · -- the table starts in one of the two pages
    rw [length, ← esp_eq]
    rintro _ (absent | long)
    · refine absurd absent (filling₂.table_below small ?_)
      rw [toNat_sub, size, firstPage]
      omega
    · omega
  · intro s' fresh past _
    rw [if_pos (by decide)]
    refine failed s' fresh (fun fits => past ?_) pushable
    have total' := fits.2
    rw [length]
    omega
  · intro s₃ filling₃ stack₃ tables₃ written place inside
    rw [if_neg (by decide)]
    rw [length] at place
    refine done places sp esp s₃ ⟨count ▸ few, by omega⟩ filling₃ stack₃ (tables₃.trans tables₂)
      ⟨laid.congr (by omega) fun x above => ?_, few, fun n value there => ?_, by omega, inside⟩
    · rw [written]
      apply ByteSpace.write_outside
      have limit := x.isLt
      rw [toNat_sub, length]
      omega
    · rw [written]
      exact ByteSpace.word_write_words there (by omega)

end Vm

end Xv6
