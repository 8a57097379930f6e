import Xv6.User.FreeList

/-!
# The invariant of the user heap

`malloc` takes a block out of the list or cuts one in two, and `morecore` adds one. In every state
that a program reaches the free blocks and the blocks in use tile the memory obtained from
`sbrk`, and every call returns.
-/

namespace Xv6

open BitVec (le_def toNat_add toNat_mul lt_def)
open List (mem_cons pairwise_append mem_cons_self forall_mem_singleton mem_cons_of_mem perm_middle
  mem_pair mem_map_of_mem)
open Bytes (Byte)
open Circular (Path path_nil path_cons path_append path_split)
open Tiling

namespace Heap

variable {h h' : Heap} {p q bp : Word} {nodes front back : List Word} {others : List Extent}
  {area : Nat → Prop}

theorem FreeList.split_link (list : h.FreeList nodes) (member : q ∈ h.base :: nodes)
    (link : h.ptr q = p) (other : p ≠ h.base) :
    ∃ front back, h.base :: nodes = front ++ q :: p :: back := by
  obtain ⟨front, rest, split⟩ := List.append_of_mem member
  have next := list.ptr_eq front split
  cases rest with
  | nil =>
    rw [link] at next
    exact absurd next other
  | cons first back =>
    rw [link, List.headD_cons] at next
    exact ⟨front, back, by rw [split, next]⟩

/-- What `malloc` has when it returns a block: it is not free, it has the size that was asked
for, and the other blocks are as they were. -/
structure Gives (h h' : Heap) (ap nunits : Word) (others : List Extent) (area : Nat → Prop) :
    Prop where
  wf : ∃ nodes', h'.Wf nodes' (h'.block (ap - headerSize) :: others) area
  size : h'.size (ap - headerSize) = nunits
  some : ap ≠ 0
  base : h'.base = h.base
  kept : ∀ b ∈ others, ∀ x, b.Has x → h'.memory x = h.memory x

theorem plus_one_sub : plus p 1 - headerSize = p := by
  unfold plus headerSize
  bv_omega

theorem plus_one_ne {bound : Nat} (high : p.toNat + 8 ≤ bound) (top : bound < 2 ^ 31) :
    plus p 1 ≠ 0 := by
  unfold plus headerSize
  bv_omega

theorem Wf.take_all (wf : h.Wf nodes others area) (member : q ∈ h.base :: nodes)
    (link : h.ptr q = p) (other : p ≠ h.base) :
    Gives h { h.setPtr q (h.ptr p) with freep := q } (plus p 1) (h.size p) others area := by
  obtain ⟨front, back, split⟩ := wf.list.split_link member link other
  have listed : p ∈ h.base :: nodes := by simp [split]
  have node := wf.node_inside ((mem_cons.mp listed).resolve_left other)
  have ordered := wf.ordered
  rw [split] at ordered
  have behind := (List.pairwise_cons.mp (pairwise_append.mp ordered).2.1).1
  have edits : Edits h (h.setPtr q (h.ptr p)) [q] := edits_setPtr _
  have sizeQ : (h.setPtr q (h.ptr p)).size q = h.size q := size_setPtr _
  have sizeP : (h.setPtr q (h.ptr p)).size p = h.size p := by
    have apart : Apart p q := .inr (behind p mem_cons_self).1
    exact (edits.header (by simpa using apart)).2
  have next : h.ptr p = back.headD h.base :=
    wf.list.ptr_eq (front ++ [q]) (by rw [split, List.append_assoc]; rfl)
  have replaces : Replaces h { h.setPtr q (h.ptr p) with freep := q } q [p] [] back others
      (h.block p :: others) area := by
    refine ⟨⟨[q], ⟨edits.memory, rfl, rfl⟩, ?_⟩, path_nil.mpr ((ptr_setPtr _).trans next),
      fun isBase => sizeQ.trans (isBase ▸ wf.list.empty), ?_, List.pairwise_singleton _ _, ?_,
      fun rest tiles => ?_⟩
    · rw [forall_mem_singleton]
      exact ⟨Nat.le_refl _, fun b late => (behind b (mem_cons_of_mem _ late)).1⟩
    · rw [forall_mem_singleton]
      intro notBase
      show 0 < ((h.setPtr q (h.ptr p)).size q).toNat
      rw [sizeQ]
      exact wf.list.some q ((mem_cons.mp member).resolve_left notBase)
    · rw [forall_mem_singleton]
      refine ⟨Nat.le_refl _, fun b late => ?_⟩
      show q.toNat + ((h.setPtr q (h.ptr p)).size q).toNat * 8 < b.toNat
      rw [sizeQ]
      exact (behind b (mem_cons_of_mem _ late)).2
    · show Tiles ([q].map (h.setPtr q (h.ptr p)).block ++ (rest ++ h.block p :: others)) area
      have old : Tiles (h.block q :: h.block p :: (rest ++ others)) area := tiles
      rw [map_block_congr (h := h) (by simp)]
      exact old.perm (List.Perm.cons _ perm_middle.symm)
  obtain ⟨nodes', -, wf'⟩ := wf.replaced split replaces (by simp)
  refine ⟨⟨nodes', ?_⟩, ?_, ?_, rfl, ?_⟩
  · rw [plus_one_sub, block]
    show Heap.Wf _ nodes' (⟨p.toNat, ((h.setPtr q (h.ptr p)).size p).toNat * 8⟩ :: others) area
    rw [sizeP]
    exact wf'
  · rw [plus_one_sub]
    exact sizeP
  · exact plus_one_ne (show p.toNat + 8 ≤ h.sz.toNat by omega) wf.sz_lt
  · intro b isOther x has
    refine edits.memory x fun r isQ => ?_
    rw [List.mem_singleton.mp isQ]
    exact wf.header_outside member isOther has

variable {nunits : Word}

section

variable (wf : h.Wf nodes others area)
include wf

theorem Wf.take_tail (member : q ∈ h.base :: nodes) (inNodes : p ∈ nodes) (some : 0 < nunits.toNat)
    (larger : nunits.toNat < (h.size p).toNat) :
    Gives h { (h.setSize p (h.size p - nunits)).setSize (plus p (h.size p - nunits)) nunits with
      freep := q } (plus (plus p (h.size p - nunits)) 1) nunits others area := by
  have listP : p ∈ h.base :: nodes := mem_cons_of_mem _ inNodes
  obtain ⟨front, back, split⟩ := List.append_of_mem listP
  have ordered := wf.ordered
  rw [split] at ordered
  have behind := (List.pairwise_cons.mp (pairwise_append.mp ordered).2.1).1
  have node := wf.node_inside inNodes
  have top := wf.sz_lt
  have left : (h.size p - nunits).toNat = (h.size p).toNat - nunits.toNat := by
    rw [BitVec.toNat_sub_of_le (by rw [le_def]; omega)]
  have start : (plus p (h.size p - nunits)).toNat =
      p.toNat + ((h.size p).toNat - nunits.toNat) * 8 := by
    unfold stop at node
    rw [plus_toNat (by rw [left]; omega), left]
  generalize plus p (h.size p - nunits) = t at start
  have inside : p.toNat + 8 ≤ t.toNat ∧ t.toNat + 8 ≤ h.stop p := by
    unfold stop
    omega
  have edits : Edits h ((h.setSize p (h.size p - nunits)).setSize t nunits) [p, t] :=
    (edits_setSize _).trans (edits_setSize _)
  have atP := (edits_setSize (h := h.setSize p (h.size p - nunits)) (p := t) nunits).header (q := p)
    (by simp only [List.mem_singleton, forall_eq, Apart]; omega)
  rw [ptr_setSize, size_setSize] at atP
  have atT : ((h.setSize p (h.size p - nunits)).setSize t nunits).size t = nunits := size_setSize _
  generalize (h.setSize p (h.size p - nunits)).setSize t nunits = g at edits atP atT
  have replaces : Replaces h { g with freep := q } p [] [] back others (g.block t :: others)
      area := by
    refine ⟨⟨[p, t], ⟨edits.memory, edits.base, edits.sz⟩, fun r isEdited => ?_⟩,
      path_nil.mpr (atP.1.trans (wf.list.ptr_eq front split)), fun isBase => ?_, ?_,
      List.pairwise_singleton _ _, ?_, fun rest tiles => ?_⟩
    · have after : ∀ b ∈ back, h.stop p < b.toNat := fun b late => (behind b late).2
      rcases mem_pair.mp isEdited with rfl | rfl
      · exact ⟨Nat.le_refl _, fun b late => (behind b late).1⟩
      · refine ⟨by omega, fun b late => ?_⟩
        have order := after b late
        omega
    · rw [isBase] at node
      omega
    · rw [forall_mem_singleton]
      show p ≠ h.base → 0 < (g.size p).toNat
      rw [atP.2, left]
      omega
    · rw [forall_mem_singleton]
      refine ⟨Nat.le_refl _, fun b late => ?_⟩
      show p.toNat + (g.size p).toNat * 8 < b.toNat
      have order := (behind b late).2
      unfold stop at order
      rw [atP.2, left]
      omega
    · have whole : h.block p =
          ⟨p.toNat, ((h.size p).toNat - nunits.toNat) * 8 + nunits.toNat * 8⟩ := by
        rw [block, ← Nat.add_mul, Nat.sub_add_cancel (Nat.le_of_lt larger)]
      have first : g.block p = ⟨p.toNat, ((h.size p).toNat - nunits.toNat) * 8⟩ := by
        rw [block, atP.2, left]
      have second : g.block t =
          ⟨p.toNat + ((h.size p).toNat - nunits.toNat) * 8, nunits.toNat * 8⟩ := by
        rw [block, atT, start]
      have cut : Tiles (h.block p :: (rest ++ others)) area := tiles
      rw [whole, ← tiles_join, ← first, ← second] at cut
      exact cut.perm (List.Perm.cons _ perm_middle.symm)
  obtain ⟨nodes', -, wf'⟩ := wf.replaced split replaces (split ▸ member)
  refine ⟨⟨nodes', ?_⟩, ?_, ?_, edits.base, ?_⟩
  · rw [plus_one_sub]
    exact wf'
  · rw [plus_one_sub]
    exact atT
  · exact plus_one_ne (show t.toNat + 8 ≤ h.sz.toNat by omega) top
  · intro b isOther x has
    refine edits.memory x fun r isEdited inHeader => ?_
    have inP : (h.block p).Has x := by
      unfold stop at inside
      simp only [Extent.Has, block] at inHeader ⊢
      rcases mem_pair.mp isEdited with rfl | rfl <;> omega
    exact (pairwise_append.mp wf.tiles.disjoint).2.2 (h.block p)
      (mem_map_of_mem listP) b isOther x inP has

theorem Wf.take (member : q ∈ h.base :: nodes) (memberP : p ∈ h.base :: nodes) (link : h.ptr q = p)
    (some : 0 < nunits.toNat) (enough : nunits ≤ h.size p) :
    Gives h (h.take nunits q p).2 (h.take nunits q p).1 nunits others area ∧
      (h.take nunits q p).2.sz = h.sz := by
  have other : p ≠ h.base := by
    rintro rfl
    rw [wf.list.empty, le_def, show (0 : Word).toNat = 0 from rfl] at enough
    omega
  rw [le_def] at enough
  by_cases exactly : h.size p = nunits
  · have shape : h.take nunits q p = (plus p 1, { h.setPtr q (h.ptr p) with freep := q }) :=
      if_pos exactly
    rw [shape, ← exactly]
    exact ⟨wf.take_all member link other, rfl⟩
  · have inNodes := (mem_cons.mp memberP).resolve_left other
    have larger : nunits.toNat < (h.size p).toNat := by
      have differ := mt BitVec.eq_of_toNat_eq exactly
      omega
    have shape : h.take nunits q p = (plus (plus p (h.size p - nunits)) 1,
        { (h.setSize p (h.size p - nunits)).setSize (plus p (h.size p - nunits)) nunits with
          freep := q }) := by
      unfold Heap.take
      rw [if_neg exactly]
      simp only [size_setSize]
    rw [shape]
    exact ⟨wf.take_tail member inNodes some larger, rfl⟩

theorem Wf.perm {others' : List Extent} (same : others.Perm others') : h.Wf nodes others' area :=
  { wf with tiles := wf.tiles.perm (same.append_left _) }

end

theorem FreeList.congr (list : h.FreeList nodes) (base : h'.base = h.base)
    (freep : h'.freep = h.freep)
    (same : ∀ a ∈ h.base :: nodes, h'.ptr a = h.ptr a ∧ h'.size a = h.size a) :
    h'.FreeList nodes := by
  refine ⟨?_, ?_, ?_, ?_, ?_⟩
  · rw [base]
    exact list.circle.congr fun a member => (same a member).1
  · rw [base, freep]
    exact list.start
  · rw [base, (same _ mem_cons_self).2]
    exact list.empty
  · intro a member
    rw [(same a (mem_cons_of_mem _ member)).2]
    exact list.some a member
  · refine list.separate.imp_of_mem fun {a b} member _ before => ?_
    unfold stop at before ⊢
    rw [(same a (mem_cons_of_mem _ member)).2]
    exact before

theorem Wf.freep_ne (wf : h.Wf nodes others area) : h.freep ≠ 0 := by
  have start := wf.list.start
  have pos := wf.base_pos
  rintro null
  rw [null] at start
  rcases mem_cons.mp start with isBase | later
  · rw [← isBase] at pos
    exact absurd pos (by decide)
  · have node := (wf.node_inside later).1
    rw [show (0 : Word).toNat = 0 from rfl] at node
    omega

def grown (h h' : Heap) (area : Nat → Prop) (x : Nat) : Prop :=
  (Extent.mk h.sz.toNat (h'.sz - h.sz).toNat).Has x ∨ area x

theorem Wf.add (wf : h.Wf nodes others area) {nu : Word}
    (below : h.sz.toNat + nu.toNat * 8 < 2 ^ 31) (some : 0 < nu.toNat) {g : Heap}
    (isNext : g = ({ h with sz := h.sz + nu * headerSize } : Heap).setSize h.sz nu) :
    g.Wf nodes (g.block h.sz :: others) (h.grown g area) ∧ g.size h.sz = nu ∧
      ∀ b ∈ others, ∀ x, b.Has x → g.memory x = h.memory x := by
  have base : g.base = h.base := by rw [isNext]; rfl
  have sz : g.sz = h.sz + nu * headerSize := by rw [isNext]; rfl
  have top : g.sz.toNat = h.sz.toNat + nu.toNat * 8 := by
    rw [sz, toNat_add, toNat_mul, show headerSize.toNat = 8 from rfl,
      Nat.mod_eq_of_lt (by omega : nu.toNat * 8 < 2 ^ 32)]
    exact Nat.mod_eq_of_lt (by omega)
  have length : (g.sz - h.sz).toNat = nu.toNat * 8 := by
    rw [BitVec.toNat_sub_of_le (by rw [le_def]; omega)]
    omega
  have memory : ∀ x, x < h.sz.toNat → g.memory x = h.memory x := by
    intro x low
    rw [isNext]
    exact Bytes.store_other _ (.inl (by omega))
  have size : g.size h.sz = nu := by rw [isNext]; exact size_setSize nu
  have headers : ∀ a ∈ h.base :: nodes, g.ptr a = h.ptr a ∧ g.size a = h.size a := by
    intro a member
    refine header_congr fun x _ high => memory x ?_
    rcases mem_cons.mp member with rfl | later
    · have low := wf.base_lt
      omega
    · have node := wf.node_inside later
      omega
  have region : g.block h.sz = ⟨h.sz.toNat, (g.sz - h.sz).toNat⟩ := by
    rw [block, size, length]
  have outside : ∀ x, (g.block h.sz).Has x → ¬ area x := by
    intro x has covered
    have low := (wf.inside x covered).2
    rw [region] at has
    simp only [Extent.Has] at has
    omega
  refine ⟨⟨wf.list.congr base (by rw [isNext]; rfl) headers, ?_, ?_, ?_, ?_, ?_⟩, size, ?_⟩
  · rw [base, map_block_congr fun a member => (headers a member).2]
    have tiles := wf.tiles.grow outside
    rw [region] at tiles ⊢
    exact tiles.perm perm_middle.symm
  · intro x covered
    rw [base, top]
    have low := wf.base_lt
    rcases covered with new | old
    · simp only [Extent.Has, length] at new
      omega
    · have inside := wf.inside x old
      omega
  · rw [base]
    exact wf.base_pos
  · rw [base, top]
    have low := wf.base_lt
    omega
  · rw [top]
    exact below
  · intro b member x has
    exact memory x (wf.inside x ((wf.tiles.covers x).mpr
      ⟨b, List.mem_append_right _ member, has⟩)).2

theorem moreUnits_toNat (nu : Word) : (moreUnits nu).toNat = max 4096 nu.toNat := by
  have least : (4096 : Word).toNat = 4096 := rfl
  rw [moreUnits]
  split
  · next small =>
    rw [lt_def, least] at small
    rw [least]
    omega
  · next large =>
    rw [lt_def, least] at large
    omega

theorem sbrk_up {n : Word} (up : 0 < n.toInt) (low : h.sz.toNat < 2 ^ 31) (enough : Bool) :
    h.sbrk enough n =
      if kernbase ≤ h.sz + n ∨ enough = false then (-1, h)
      else (h.sz, { h with sz := h.sz + n }) := by
  have positive : 0 < n.toNat ∧ n.toNat < 2 ^ 31 := by
    rw [BitVec.toInt_eq_toNat_cond] at up
    split at up <;> omega
  have sum : (h.sz + n).toNat = h.sz.toNat + n.toNat := by
    rw [toNat_add]
    exact Nat.mod_eq_of_lt (by omega)
  have nonzero : h.sz + n ≠ 0 := by
    intro zero
    rw [zero] at sum
    exact absurd sum (by show 0 ≠ _; omega)
  have above : ¬ h.sz + n < h.sz := by
    rw [lt_def, sum]
    omega
  rw [Heap.sbrk, if_pos up, if_neg above]
  by_cases high : kernbase ≤ h.sz + n
  · rw [if_pos high, if_pos rfl, if_pos (.inl high)]
  · cases enough
    · rw [if_neg high, if_neg Bool.false_ne_true, if_pos rfl, if_pos (.inr rfl)]
    · rw [if_neg high, if_pos rfl, if_neg nonzero, if_neg]
      exact not_or.mpr ⟨high, Bool.true_eq_false_eq_False⟩

theorem Wf.morecore (wf : h.Wf nodes others area) (enough : Bool)
    (fits : nunits.toNat * 8 < 2 ^ 31) :
    h.morecore enough nunits = .ok (0, h) ∨
    ∃ h' nodes', h.morecore enough nunits = .ok (h'.freep, h') ∧ h'.freep ≠ 0 ∧
      h'.Wf nodes' others (h.grown h' area) ∧ h'.base = h.base ∧
      (∀ b ∈ others, ∀ x, b.Has x → h'.memory x = h.memory x) ∧
      ∃ a ∈ nodes', nunits.toNat ≤ (h'.size a).toNat := by
  have count := moreUnits_toNat nunits
  generalize isNu : moreUnits nunits = nu at count
  have some : 0 < nu.toNat := by omega
  have bytes : (nu * headerSize).toNat = nu.toNat * 8 := by
    rw [toNat_mul, show headerSize.toNat = 8 from rfl]
    exact Nat.mod_eq_of_lt (by omega)
  have top := wf.sz_lt
  have asked : moreBytes nunits = nu * headerSize := by rw [moreBytes, isNu]
  have up : 0 < (nu * headerSize).toInt := by
    rw [BitVec.toInt_eq_toNat_cond, bytes]
    omega
  have brk := sbrk_up up top enough
  by_cases fails : kernbase ≤ h.sz + nu * headerSize ∨ enough = false
  · left
    rw [if_pos fails] at brk
    simp only [Heap.morecore, asked, brk]
    rfl
  · right
    rw [if_neg fails] at brk
    have sum : (h.sz + nu * headerSize).toNat = h.sz.toNat + nu.toNat * 8 := by
      rw [toNat_add, bytes]
      exact Nat.mod_eq_of_lt (by omega)
    have below : h.sz.toNat + nu.toNat * 8 < 2 ^ 31 := by
      rw [not_or, le_def, sum, show kernbase.toNat = 2 ^ 31 from rfl] at fails
      omega
    have notFail : h.sz ≠ -1 := by
      rintro same
      rw [same] at top
      exact absurd top (by decide)
    -- the new block with its size, not yet in the list
    generalize isNext : ({ h with sz := h.sz + nu * headerSize } : Heap).setSize h.sz nu = g
    obtain ⟨added, size, before⟩ := wf.add below some isNext.symm
    obtain ⟨h', nodes', freed, wf', base, sz, kept, a, listed, big⟩ :=
      added.free (by rw [size]; exact some) (plus_one_sub (p := h.sz))
    have sameBase : g.base = h.base := by rw [← isNext]; rfl
    refine ⟨h', nodes', ?_, ?_, ?_, base.trans sameBase, ?_, a, listed, ?_⟩
    · simp only [Heap.morecore, asked, isNu, brk, if_neg notFail, isNext, freed]
      rfl
    · exact wf'.freep_ne
    · unfold grown at wf' ⊢
      rw [sz]
      exact wf'
    · intro b member x has
      rw [kept b member x has]
      exact before b member x has
    · rw [size] at big
      omega

theorem search_walk (enough : Bool) {way : List Word} :
    ∀ {p q : Word}, Path h.ptr p way h.freep → h.freep ∉ way → h.ptr q = p →
    (∃ r s, (r = q ∨ r ∈ way) ∧ s ∈ way ++ [h.freep] ∧ h.ptr r = s ∧ nunits ≤ h.size s ∧
      ∀ turns, way.length < turns →
        search enough nunits turns h q p = .ok (h.take nunits r s)) ∨
    ((∀ s ∈ way ++ [h.freep], h.size s < nunits) ∧ ∀ turns,
      search enough nunits (turns + way.length + 1) h q p =
        (h.morecore enough nunits >>= fun found =>
          if found.1 = 0 then pure (0, found.2)
          else search enough nunits turns found.2 found.1 (found.2.ptr found.1))) := by
  induction way with
  | nil =>
    intro p q path _ link
    have last := path_nil.mp path
    by_cases large : nunits ≤ h.size p
    · refine .inl ⟨q, p, .inl rfl, by simp [last], link, large, fun turns some => ?_⟩
      rw [List.length_nil] at some
      obtain ⟨turns, rfl⟩ : ∃ n, turns = n + 1 := ⟨turns - 1, by omega⟩
      simp only [search, if_pos large]
    · refine .inr ⟨by simpa [← last] using large, fun turns => ?_⟩
      simp only [List.length_nil, Nat.add_zero, search, if_neg large, if_pos last]
  | cons first way ih =>
    intro p q path absent link
    obtain ⟨rfl, rest⟩ := path_cons.mp path
    obtain ⟨differs, absent⟩ := not_or.mp (mt mem_cons.mpr absent)
    by_cases large : nunits ≤ h.size p
    · refine .inl ⟨q, p, .inl rfl, by simp, link, large, fun turns some => ?_⟩
      obtain ⟨turns, rfl⟩ : ∃ n, turns = n + 1 := ⟨turns - 1, by omega⟩
      simp only [search, if_pos large]
    · have goes : ∀ turns, search enough nunits (turns + 1) h q p =
          search enough nunits turns h p (h.ptr p) := fun turns => by
        simp only [search, if_neg large, if_neg (Ne.symm differs)]
      rcases ih rest absent rfl with ⟨r, s, before, listed, link, fits, found⟩ | ⟨small, asks⟩
      · refine .inl ⟨r, s, .inr ?_, mem_cons_of_mem p listed, link, fits, fun turns some => ?_⟩
        · rcases before with rfl | later
          · exact mem_cons_self
          · exact mem_cons_of_mem _ later
        · obtain ⟨turns, rfl⟩ : ∃ n, turns = n + 1 := ⟨turns - 1, by omega⟩
          rw [goes]
          rw [List.length_cons] at some
          exact found turns (by omega)
      · refine .inr ⟨?_, fun turns => ?_⟩
        · intro s listed
          rw [List.cons_append, mem_cons] at listed
          rcases listed with rfl | later
          · simpa using large
          · exact small s later
        · rw [List.length_cons, ← Nat.add_assoc, goes, asks]

theorem Wf.search (wf : h.Wf nodes others area) (enough : Bool) (some : 0 < nunits.toNat) :
    (∃ ap h', Gives h h' ap nunits others area ∧ h'.sz = h.sz ∧ ∀ turns,
      nodes.length < turns → search enough nunits turns h h.freep (h.ptr h.freep) = .ok (ap, h')) ∨
    ((∀ s ∈ h.base :: nodes, h.size s < nunits) ∧ ∃ length ≤ nodes.length, ∀ turns,
      search enough nunits (turns + length + 1) h h.freep (h.ptr h.freep) =
        (h.morecore enough nunits >>= fun found =>
          if found.1 = 0 then pure (0, found.2)
          else search enough nunits turns found.2 found.1 (found.2.ptr found.1))) := by
  obtain ⟨way, path, turn⟩ := wf.list.circle.turn wf.list.start
  have distinct : (h.base :: nodes).Nodup :=
    wf.ordered.imp fun both same => by rw [same] at both; omega
  have absent : h.freep ∉ way := by
    have nodup := turn.nodup_iff.mpr distinct
    rw [List.nodup_append] at nodup
    exact fun member => nodup.2.2 _ member _ (by simp) rfl
  have length : way.length = nodes.length := by
    have same := turn.length_eq
    simpa using same
  rcases search_walk enough path absent rfl with ⟨r, s, before, listed, link, fits, found⟩ |
    ⟨small, asks⟩
  · left
    have memberR : r ∈ h.base :: nodes := by
      rcases before with rfl | later
      · exact wf.list.start
      · exact turn.subset (List.mem_append_left _ later)
    have taken := wf.take memberR (turn.subset listed) link some fits
    refine ⟨_, _, taken.1, taken.2, fun turns large => ?_⟩
    exact found turns (by omega)
  · right
    refine ⟨fun s member => small s (turn.symm.subset member), way.length, by omega, asks⟩

theorem grown_same (same : h'.sz = h.sz) : h.grown h' area = area := by
  funext x
  unfold grown
  rw [same, BitVec.sub_self]
  refine propext (or_iff_right fun has => ?_)
  simp only [Extent.Has, BitVec.toNat_zero] at has
  omega

structure Mallocs (h h' : Heap) (ap nunits : Word) (others : List Extent) (area : Nat → Prop) :
    Prop where
  outcome : (ap = 0 ∧ ∃ nodes', h'.Wf nodes' others (h.grown h' area)) ∨
    (ap ≠ 0 ∧ h'.size (ap - headerSize) = nunits ∧
      ∃ nodes', h'.Wf nodes' (h'.block (ap - headerSize) :: others) (h.grown h' area))
  base : h'.base = h.base
  kept : ∀ b ∈ others, ∀ x, b.Has x → h'.memory x = h.memory x

theorem Wf.mallocs (wf : h.Wf nodes others area) (enough : Bool) (some : 0 < nunits.toNat)
    (fits : nunits.toNat * 8 < 2 ^ 31) :
    ∃ ap h', Heap.search enough nunits turns h h.freep (h.ptr h.freep) = .ok (ap, h') ∧
      Mallocs h h' ap nunits others area := by
  have limit := wf.length_lt
  rcases wf.search enough some with ⟨ap, h', gives, sz, found⟩ | ⟨-, length, short, asks⟩
  · refine ⟨ap, h', found turns (by omega), ⟨.inr ⟨gives.some, gives.size, ?_⟩, gives.base,
      gives.kept⟩⟩
    rw [grown_same sz]
    exact gives.wf
  · obtain ⟨left, enoughLeft⟩ : ∃ left, turns = left + length + 1 :=
      ⟨turns - length - 1, by omega⟩
    rcases wf.morecore enough fits with fails | ⟨h₁, nodes₁, adds, nonzero, wf₁, base, kept, a,
      listed, big⟩
    · refine ⟨0, h, ?_, ⟨.inl ⟨rfl, nodes, ?_⟩, rfl, fun _ _ _ _ => rfl⟩⟩
      · rw [enoughLeft, asks, fails]
        rfl
      · rw [grown_same rfl]
        exact wf
    · -- the search goes on in the list that has a block that is large enough
      have limit₁ := wf₁.length_lt
      rcases wf₁.search enough some with ⟨ap, h', gives, sz, found⟩ | ⟨small, -⟩
      · refine ⟨ap, h', ?_, ⟨.inr ⟨gives.some, gives.size, ?_⟩, gives.base.trans base, ?_⟩⟩
        · rw [enoughLeft, asks, adds]
          show (if h₁.freep = 0 then _ else _) = _
          rw [if_neg nonzero]
          exact found left (by omega)
        · have same : h.grown h' area = h.grown h₁ area := by
            funext x
            rw [grown, grown, sz]
          rw [same]
          exact gives.wf
        · intro b member x has
          rw [gives.kept b member x has]
          exact kept b member x has
      · have tooSmall := small a (mem_cons_of_mem _ listed)
        rw [lt_def] at tooSmall
        omega

theorem units_toNat {nbytes : Word} (fits : HeapSystem.Fits nbytes) :
    (units nbytes).toNat = (nbytes.toNat + 7) / 8 + 1 := by
  unfold HeapSystem.Fits at fits
  have sum : (nbytes + headerSize - 1).toNat = nbytes.toNat + 7 := by
    unfold headerSize
    bv_omega
  have quotient : ((nbytes + headerSize - 1) / headerSize).toNat = (nbytes.toNat + 7) / 8 := by
    rw [BitVec.toNat_udiv, sum]
    rfl
  rw [units, toNat_add, quotient]
  exact Nat.mod_eq_of_lt (by rw [show (1 : Word).toNat = 1 from rfl]; omega)

theorem fits_iff {nbytes : Word} : HeapSystem.Fits nbytes ↔
    (units nbytes).toNat = (nbytes.toNat + 7) / 8 + 1 ∧
      (moreBytes (units nbytes)).toInt = 8 * max 4096 ((nbytes.toNat + 7) / 8 + 1 : Nat) := by
  constructor
  · intro fits
    have count := units_toNat fits
    refine ⟨count, ?_⟩
    unfold HeapSystem.Fits at fits
    have bytes : (moreBytes (units nbytes)).toNat = max 4096 ((nbytes.toNat + 7) / 8 + 1) * 8 := by
      rw [moreBytes, toNat_mul, moreUnits_toNat, count, show headerSize.toNat = 8 from rfl]
      exact Nat.mod_eq_of_lt (by omega)
    rw [BitVec.toInt_eq_toNat_of_lt (by omega), bytes]
    omega
  · -- what `sbrk` is asked for is below half the range of words
    rintro ⟨-, bytes⟩
    have bound := BitVec.toInt_lt (x := moreBytes (units nbytes))
    rw [bytes] at bound
    unfold HeapSystem.Fits
    omega

theorem initial_wf (base_pos : 0 < h.base.toNat) (base_lt : h.base.toNat + 8 ≤ h.sz.toNat)
    (sz_lt : h.sz.toNat < 2 ^ 31) : h.initial.Wf [] [] (fun _ => False) := by
  have ptr : h.initial.ptr h.base = h.base := by
    show ((h.setPtr h.base h.base).setSize h.base 0).ptr h.base = h.base
    rw [ptr_setSize, ptr_setPtr]
  have size : h.initial.size h.base = 0 := size_setSize 0
  refine ⟨⟨path_cons.mpr ⟨rfl, path_nil.mpr ptr⟩, mem_cons_self, size, by nofun,
    List.Pairwise.nil⟩, ⟨?_, fun x => ?_⟩, by nofun, base_pos, base_lt, sz_lt⟩
  · exact List.pairwise_singleton _ _
  · refine iff_of_false id ?_
    rintro ⟨b, member, has⟩
    have isBase : b = h.initial.block h.initial.base := by simpa using member
    rw [isBase, block, show h.initial.base = h.base from rfl, size] at has
    simp only [Extent.Has, show (0 : Word).toNat = 0 from rfl] at has
    omega

end Heap

namespace HeapSystem

open Heap

variable {m m' : HeapSystem}

def blocksOf (h : Heap) (live : List (Word × Word)) : List Extent :=
  live.map fun use => h.block (use.1 - headerSize)

def areaOf (granted : List Extent) (x : Nat) : Prop := ∃ region ∈ granted, region.Has x

structure Fresh (m : HeapSystem) : Prop where
  freep : m.heap.freep = 0
  live : m.live = []
  granted : m.granted = []
  base_pos : 0 < m.heap.base.toNat
  base_lt : m.heap.base.toNat + 8 ≤ m.heap.sz.toNat
  sz_lt : m.heap.sz.toNat < 2 ^ 31

/-- The free blocks and the blocks in use tile what was obtained, and the blocks in use are large
enough. -/
structure Tiled (h : Heap) (live : List (Word × Word)) (granted : List Extent) (nodes : List Word) :
    Prop where
  wf : h.Wf nodes (blocksOf h live) (areaOf granted)
  room : ∀ use ∈ live, use.2.toNat + 8 ≤ (h.size (use.1 - headerSize)).toNat * 8

def Inv (m : HeapSystem) : Prop := m.Fresh ∨ ∃ nodes, Tiled m.heap m.live m.granted nodes

variable {h h' : Heap} {live live' : List (Word × Word)} {granted : List Extent} {nodes : List Word}

theorem sizes_kept
    (room : ∀ use ∈ live, use.2.toNat + 8 ≤ (h.size (use.1 - headerSize)).toNat * 8)
    (same : ∀ b ∈ blocksOf h live, ∀ x, b.Has x → h'.memory x = h.memory x) :
    ∀ use ∈ live, h'.size (use.1 - headerSize) = h.size (use.1 - headerSize) := by
  intro use member
  have room := room use member
  refine (header_congr fun x low high => same _ (mem_map_of_mem member) x ?_).2
  simp only [Extent.Has, block]
  omega

theorem blocksOf_congr
    (sizes : ∀ use ∈ live, h'.size (use.1 - headerSize) = h.size (use.1 - headerSize)) :
    blocksOf h' live = blocksOf h live :=
  List.map_congr_left fun use member => by rw [block, block, sizes use member]

theorem tiled_of_mallocs {ap nunits nbytes : Word}
    (mallocs : Mallocs h h' ap nunits (blocksOf h live) (areaOf granted))
    (room : ∀ use ∈ live, use.2.toNat + 8 ≤ (h.size (use.1 - headerSize)).toNat * 8)
    (enough : nbytes.toNat + 8 ≤ nunits.toNat * 8) :
    ∃ nodes', Tiled h' (if ap = 0 then live else (ap, nbytes) :: live)
      (if h'.sz = h.sz then granted else ⟨h.sz.toNat, (h'.sz - h.sz).toNat⟩ :: granted) nodes' := by
  have sizes := sizes_kept room mallocs.kept
  have blocks := blocksOf_congr sizes
  have area : areaOf (if h'.sz = h.sz then granted
      else ⟨h.sz.toNat, (h'.sz - h.sz).toNat⟩ :: granted) = h.grown h' (areaOf granted) := by
    by_cases same : h'.sz = h.sz
    · rw [grown_same same, if_pos same]
    · rw [if_neg same]
      funext x
      simp only [areaOf, mem_cons, exists_eq_or_imp, grown]
  rcases mallocs.outcome with ⟨null, nodes', wf⟩ | ⟨some, size, nodes', wf⟩
  · refine ⟨nodes', ?_, ?_⟩
    · rw [area, if_pos null, blocks]
      exact wf
    · rw [if_pos null]
      intro use member
      rw [sizes use member]
      exact room use member
  · refine ⟨nodes', ?_, ?_⟩
    · rw [area, if_neg some]
      show h'.Wf nodes' (h'.block (ap - headerSize) :: blocksOf h' live) _
      rw [blocks]
      exact wf
    · rw [if_neg some]
      intro use member
      rcases mem_cons.mp member with rfl | old
      · rw [size]
        exact enough
      · rw [sizes use old]
        exact room use old

theorem Inv.malloc (inv : m.Inv) {nbytes : Word} (fits : Fits nbytes) (enough : Bool) :
    ∃ m', m.perform (.malloc nbytes enough) = .ok m' ∧ m'.Inv := by
  have units := units_toNat fits
  unfold Fits at fits
  generalize isUnits : Heap.units nbytes = nunits at units
  -- the list before the search, made by this call if it is the first
  obtain ⟨h, isHeap, nodes, tiled, sz⟩ :
      ∃ h, (if m.heap.freep = 0 then m.heap.initial else m.heap) = h ∧
        ∃ nodes, Tiled h m.live m.granted nodes ∧ h.sz = m.heap.sz := by
    rcases inv with fresh | ⟨nodes, tiled⟩
    · refine ⟨m.heap.initial, if_pos fresh.freep, [], ⟨?_, ?_⟩, rfl⟩
      · rw [fresh.live, fresh.granted]
        have none : areaOf [] = fun _ => False := by
          funext x
          simp [areaOf]
        rw [none]
        exact initial_wf fresh.base_pos fresh.base_lt fresh.sz_lt
      · rw [fresh.live]
        nofun
    · exact ⟨m.heap, if_neg tiled.wf.freep_ne, nodes, tiled, rfl⟩
  have some : 0 < nunits.toNat := by omega
  have room : nbytes.toNat + 8 ≤ nunits.toNat * 8 := by omega
  obtain ⟨ap, h', found, mallocs⟩ := tiled.wf.mallocs enough some (by omega)
  have tiled' := tiled_of_mallocs mallocs tiled.room room
  refine ⟨{
    heap := h'
    live := if ap = 0 then m.live else (ap, nbytes) :: m.live
    granted := if h'.sz = h.sz then m.granted
      else ⟨h.sz.toNat, (h'.sz - h.sz).toNat⟩ :: m.granted }, ?_, .inr tiled'⟩
  have called : m.heap.malloc enough nbytes = .ok (ap, h') := by
    unfold Heap.malloc
    simp only [isUnits, isHeap]
    exact found
  simp only [perform, called, bind, Except.bind, pure, Except.pure, sz]

theorem Inv.free (inv : m.Inv) {ap : Word} (used : ∃ use ∈ m.live, use.1 = ap) :
    ∃ m', m.perform (.free ap) = .ok m' ∧ m'.Inv := by
  obtain ⟨use, member, isAp⟩ := used
  rcases inv with fresh | ⟨nodes, tiled⟩
  · rw [fresh.live] at member
    cases member
  · obtain ⟨first, front, back, -, found, split, erased⟩ :=
      List.exists_of_eraseP (p := fun use => use.1 = ap) member (by simpa using isAp)
    have isFirst : first.1 = ap := by simpa using found
    have order : (blocksOf m.heap m.live).Perm
        (m.heap.block (ap - headerSize) :: blocksOf m.heap (front ++ back)) := by
      rw [split, ← isFirst]
      exact perm_middle.map _
    have room : ∀ use ∈ front ++ back,
        use.2.toNat + 8 ≤ (m.heap.size (use.1 - headerSize)).toNat * 8 := by
      intro use listed
      refine tiled.room use ?_
      rw [split]
      exact mem_with first listed
    have large := tiled.room first (by simp [split])
    rw [isFirst] at large
    obtain ⟨h', nodes', freed, wf', -, -, kept, -⟩ := (tiled.wf.perm order).free (by omega) rfl
    have sizes := sizes_kept room kept
    refine ⟨{ m with heap := h', live := front ++ back }, ?_, .inr ⟨nodes', ?_, ?_⟩⟩
    · simp only [perform, freed, bind, Except.bind, pure, Except.pure, erased]
    · rw [blocksOf_congr sizes]
      exact wf'
    · intro use listed
      rw [sizes use listed]
      exact room use listed

theorem Inv.sbrk (inv : m.Inv) {n : Word} (up : 0 < n.toInt) (enough : Bool) :
    ∃ m', m.perform (.sbrk n enough) = .ok m' ∧ m'.Inv := by
  refine ⟨_, rfl, ?_⟩
  have low : m.heap.sz.toNat < 2 ^ 31 := by
    rcases inv with fresh | ⟨nodes, tiled⟩
    · exact fresh.sz_lt
    · exact tiled.wf.sz_lt
  have brk := sbrk_up up low enough
  by_cases fails : kernbase ≤ m.heap.sz + n ∨ enough = false
  · rw [brk, if_pos fails]
    exact inv
  · rw [if_neg fails] at brk
    rw [not_or, le_def, show kernbase.toNat = 2 ^ 31 from rfl] at fails
    have positive : n.toNat < 2 ^ 31 := by
      rw [BitVec.toInt_eq_toNat_cond] at up
      split at up <;> omega
    have sum : (m.heap.sz + n).toNat = m.heap.sz.toNat + n.toNat := by
      rw [toNat_add]
      exact Nat.mod_eq_of_lt (by omega)
    rw [brk]
    rcases inv with fresh | ⟨nodes, tiled⟩
    · have low := fresh.base_lt
      refine .inl ⟨fresh.freep, fresh.live, fresh.granted, fresh.base_pos, ?_, ?_⟩
      · show m.heap.base.toNat + 8 ≤ (m.heap.sz + n).toNat
        omega
      · show (m.heap.sz + n).toNat < 2 ^ 31
        omega
    · refine .inr ⟨nodes, tiled.wf.relisted rfl ?_ ?_
        (tiled.wf.list.congr rfl rfl fun _ _ => ⟨rfl, rfl⟩) tiled.wf.tiles, tiled.room⟩
      · show m.heap.sz.toNat ≤ (m.heap.sz + n).toNat
        omega
      · show (m.heap.sz + n).toNat < 2 ^ 31
        omega

theorem Tiled.outside (tiled : Tiled m.heap m.live m.granted nodes) {x : Nat}
    (writable : m.Writable x) :
    (∀ q ∈ m.heap.base :: nodes, ¬ (Extent.mk q.toNat 8).Has x) ∧
      ∀ use ∈ m.live, ¬ (Extent.mk (use.1 - headerSize).toNat 8).Has x := by
  have wf := tiled.wf
  have area : ∀ b ∈ (m.heap.base :: nodes).map m.heap.block ++ blocksOf m.heap m.live, b.Has x →
      areaOf m.granted x := fun b member has => (wf.tiles.covers x).mpr ⟨b, member, has⟩
  -- a header is part of its block
  have ofNode : ∀ q ∈ nodes, (Extent.mk q.toNat 8).Has x → (m.heap.block q).Has x := by
    intro q member has
    have some := wf.list.some q member
    simp only [Extent.Has, block] at has ⊢
    omega
  have ofUse : ∀ use ∈ m.live, (Extent.mk (use.1 - headerSize).toNat 8).Has x →
      (m.heap.block (use.1 - headerSize)).Has x := by
    intro use member has
    have room := tiled.room use member
    simp only [Extent.Has, block] at has ⊢
    omega
  rcases writable with ⟨use, member, low, high⟩ | ⟨notGranted, notBase⟩
  · have room := tiled.room use member
    have inside := wf.block_inside (b := m.heap.block (use.1 - headerSize))
      (List.mem_append_right _ (mem_map_of_mem member)) (by simp only [block]; omega)
    have top := wf.sz_lt
    have start : use.1.toNat = (use.1 - headerSize).toNat + 8 := by
      simp only [block] at inside
      unfold headerSize at inside ⊢
      bv_omega
    have has : (m.heap.block (use.1 - headerSize)).Has x := by
      simp only [Extent.Has, block]
      omega
    refine ⟨fun q listed => wf.header_outside listed (mem_map_of_mem member) has, ?_⟩
    intro other isLive inHeader
    have pairs := (pairwise_append.mp wf.tiles.disjoint).2.1
    have symm : Std.Symm Extent.Disjoint := ⟨fun _ _ => Extent.Disjoint.symm⟩
    by_cases same : m.heap.block (other.1 - headerSize) = m.heap.block (use.1 - headerSize)
    · have starts : (other.1 - headerSize).toNat = (use.1 - headerSize).toNat :=
        congrArg Extent.start same
      simp only [Extent.Has] at inHeader
      omega
    · exact pairs.forall (mem_map_of_mem isLive) (mem_map_of_mem member) same x
        (ofUse other isLive inHeader) has
  · have free : ∀ b ∈ (m.heap.base :: nodes).map m.heap.block ++ blocksOf m.heap m.live,
        ¬ b.Has x := by
      intro b member has
      obtain ⟨region, listed, inside⟩ := area b member has
      exact notGranted region listed inside
    refine ⟨fun q listed => ?_, fun use member inHeader => ?_⟩
    · rcases mem_cons.mp listed with rfl | later
      · exact notBase
      · exact fun inHeader => free _ (List.mem_append_left _ (mem_map_of_mem listed))
          (ofNode q later inHeader)
    · exact free _ (List.mem_append_right _ (mem_map_of_mem member))
        (ofUse use member inHeader)

theorem Inv.write (inv : m.Inv) {x : Nat} (writable : m.Writable x) (byte : Byte) :
    ∃ m', m.perform (.write x byte) = .ok m' ∧ m'.Inv := by
  refine ⟨_, rfl, ?_⟩
  rcases inv with fresh | ⟨nodes, tiled⟩
  · exact .inl ⟨fresh.freep, fresh.live, fresh.granted, fresh.base_pos, fresh.base_lt,
      fresh.sz_lt⟩
  · obtain ⟨free, used⟩ := tiled.outside writable
    generalize next : ({ m.heap with memory := Function.update m.heap.memory x byte } : Heap) = h
    have base : h.base = m.heap.base := by rw [← next]
    have sz : h.sz = m.heap.sz := by rw [← next]
    have kept : ∀ q : Word, ¬ (Extent.mk q.toNat 8).Has x →
        h.ptr q = m.heap.ptr q ∧ h.size q = m.heap.size q := by
      intro q outside
      refine header_congr fun y low high => ?_
      rw [← next]
      refine Function.update_of_ne (fun same => outside ?_) _ _
      simp only [Extent.Has]
      omega
    have headers := fun q member => kept q (free q member)
    have sizes : ∀ use ∈ m.live,
        h.size (use.1 - headerSize) = m.heap.size (use.1 - headerSize) :=
      fun use member => (kept _ (used use member)).2
    refine .inr ⟨nodes, tiled.wf.relisted base (by rw [sz]) (by rw [sz]; exact tiled.wf.sz_lt)
      (tiled.wf.list.congr base (by rw [← next]) headers) ?_, ?_⟩
    · show Tiles ((m.heap.base :: nodes).map h.block ++ blocksOf h m.live) (areaOf m.granted)
      rw [map_block_congr fun q member => (headers q member).2, blocksOf_congr sizes]
      exact tiled.wf.tiles
    · intro use member
      show use.2.toNat + 8 ≤ (h.size (use.1 - headerSize)).toNat * 8
      rw [sizes use member]
      exact tiled.room use member

theorem Inv.perform (inv : m.Inv) {event : HeapEvent} (allows : m.Allows event) :
    ∃ m', m.step event = .ok m' ∧ m'.Inv := by
  have performs : ∃ m', m.perform event = .ok m' ∧ m'.Inv := by
    cases event with
    | malloc nbytes enough => exact inv.malloc allows enough
    | free ap => exact inv.free allows
    | sbrk n enough => exact inv.sbrk allows enough
    | write x byte => exact inv.write allows byte
  obtain ⟨m', performed, inv'⟩ := performs
  exact ⟨m', (if_pos allows).trans performed, inv'⟩

theorem Inv.step (inv : m.Inv) {event : HeapEvent} (taken : m.step event = .ok m') : m'.Inv := by
  by_cases allows : m.Allows event
  · obtain ⟨next, performed, inv'⟩ := inv.perform allows
    rw [performed] at taken
    cases taken
    exact inv'
  · rw [HeapSystem.step, if_neg allows] at taken
    cases taken

theorem boot_inv (program : LoadedProgram) : program.boot.Inv := by
  have high := program.sz_lt
  rw [lt_def, show kernbase.toNat = 2 ^ 31 from rfl] at high
  exact .inl ⟨rfl, rfl, rfl, program.base_pos, program.base_lt, high⟩

/-- The heap after every run of a program. Before the first call there is no list. Then the list
of free blocks that is reached from `freep` is one circle in increasing order of addresses, from
the empty block `base` up and back to it, in which no block touches the next; the free blocks and
the blocks in use do not overlap and cover exactly the memory obtained from `sbrk`, and each block
in use has room for its header and what was asked for. Every further call of the program
returns. -/
theorem heap_invariant {program : LoadedProgram} {events : List HeapEvent}
    (reached : Transition.run step program.boot events = .ok m) :
    ((m.heap.freep = 0 ∧ m.live = [] ∧ m.granted = []) ∨
      ∃ nodes : List Word,
        (m.heap.base :: nodes).map m.heap.ptr = nodes ++ [m.heap.base] ∧
        m.heap.freep ∈ m.heap.base :: nodes ∧
        (m.heap.base :: nodes).Pairwise (· < ·) ∧
        m.heap.size m.heap.base = 0 ∧ (∀ a ∈ nodes, 0 < m.heap.size a) ∧
        (nodes.Pairwise fun a b => (m.heap.block a).start + (m.heap.block a).bytes < b.toNat) ∧
        (nodes.map m.heap.block ++ blocksOf m.heap m.live).Pairwise Extent.Disjoint ∧
        (∀ use ∈ m.live,
          use.2.toNat + 8 ≤ (m.heap.block (use.1 - headerSize)).bytes) ∧
        ∀ x, (∃ region ∈ m.granted, region.Has x) ↔
          ∃ b ∈ nodes.map m.heap.block ++ blocksOf m.heap m.live, b.Has x) ∧
    ∀ event, m.Allows event → ∃ m', m.step event = .ok m' := by
  have inv : m.Inv := Transition.run_invariant Inv (fun _ _ _ inv taken => inv.step taken)
    (boot_inv program) reached
  refine ⟨?_, fun event allows => ?_⟩
  · rcases inv with fresh | ⟨nodes, tiled⟩
    · exact .inl ⟨fresh.freep, fresh.live, fresh.granted⟩
    · have list := tiled.wf.list
      have tiles := tiled.wf.tiles.drop_empty (by
        rw [block, list.empty]
        rfl)
      refine .inr ⟨nodes, list.circle.map, list.start, ?_, list.empty, fun a member => ?_,
        list.separate, tiles.disjoint, tiled.room, tiles.covers⟩
      · refine tiled.wf.ordered.imp fun both => ?_
        rw [BitVec.lt_def]
        omega
      · rw [BitVec.lt_def]
        exact list.some a member
  · obtain ⟨m', performed, -⟩ := inv.perform allows
    exact ⟨m', performed⟩

def smallProgram : LoadedProgram where
  memory := fun _ => 0
  base := 0x1800
  sz := 0x3000
  base_pos := by decide
  base_lt := by decide
  sz_lt := by decide

def smallRun : List HeapEvent :=
  [.malloc 10 true, .malloc 100 true, .write 0xAFF2 7, .free 0xAFF0]

/-- After the run one block is in use and two are free, `base` apart. -/
theorem heap_invariant_small :
    ∃ m, Transition.run step smallProgram.boot smallRun = .ok m ∧
      m.live = [(0xAF80, 100)] ∧ m.heap.freep = 0x3000 ∧
      ((m.heap.freep = 0 ∧ m.live = [] ∧ m.granted = []) ∨
        ∃ nodes : List Word,
          (m.heap.base :: nodes).map m.heap.ptr = nodes ++ [m.heap.base] ∧
          m.heap.freep ∈ m.heap.base :: nodes ∧
          (m.heap.base :: nodes).Pairwise (· < ·) ∧
          m.heap.size m.heap.base = 0 ∧ (∀ a ∈ nodes, 0 < m.heap.size a) ∧
          (nodes.Pairwise fun a b => (m.heap.block a).start + (m.heap.block a).bytes < b.toNat) ∧
          (nodes.map m.heap.block ++ blocksOf m.heap m.live).Pairwise Extent.Disjoint ∧
          (∀ use ∈ m.live,
            use.2.toNat + 8 ≤ (m.heap.block (use.1 - headerSize)).bytes) ∧
          ∀ x, (∃ region ∈ m.granted, region.Has x) ↔
            ∃ b ∈ nodes.map m.heap.block ++ blocksOf m.heap m.live, b.Has x) := by
  obtain ⟨m, reached, shape⟩ := Transition.exists_of_ends
    (show Transition.ends (fun m : HeapSystem => decide (m.live = [(0xAF80, 100)] ∧
      m.heap.freep = 0x3000)) (Transition.run step smallProgram.boot smallRun) = true by
        decide +kernel)
  have shape := of_decide_eq_true shape
  exact ⟨m, reached, shape.1, shape.2, (heap_invariant reached).1⟩

/-- After every run of a program, `malloc` of a request that fits returns 0 or a block with room
for the request behind its header. A request fits exactly when the rounding to units is exact and
`sbrk` is asked for the positive number of bytes that these have; every larger one wraps. -/
theorem malloc_room {program : LoadedProgram} {events : List HeapEvent}
    (reached : Transition.run step program.boot events = .ok m) (nbytes : Word) (enough : Bool) :
    (Fits nbytes → ∃ ap heap, m.heap.malloc enough nbytes = .ok (ap, heap) ∧
      (ap = 0 ∨ nbytes.toNat + 8 ≤ (heap.block (ap - headerSize)).bytes)) ∧
    (Fits nbytes ↔ (units nbytes).toNat = (nbytes.toNat + 7) / 8 + 1 ∧
      (moreBytes (units nbytes)).toInt = 8 * max 4096 ((nbytes.toNat + 7) / 8 + 1 : Nat)) := by
  have inv : m.Inv := Transition.run_invariant Inv (fun _ _ _ inv taken => inv.step taken)
    (boot_inv program) reached
  refine ⟨fun fits => ?_, fits_iff⟩
  obtain ⟨m', performed, inv'⟩ := inv.malloc fits enough
  obtain ⟨⟨ap, heap⟩, called, rest⟩ := Transition.bind_ok.mp performed
  cases rest
  refine ⟨ap, heap, called, or_iff_not_imp_left.mpr fun some => ?_⟩
  rcases inv' with fresh | ⟨nodes, tiled⟩
  · have none := fresh.live
    rw [if_neg some] at none
    cases none
  · refine tiled.room (ap, nbytes) ?_
    rw [if_neg some]
    exact List.mem_cons_self

/-- `malloc_room` for 1000 bytes after the run. -/
theorem malloc_room_small :
    ∃ m, Transition.run step smallProgram.boot smallRun = .ok m ∧ Fits 1000 ∧
      (∃ ap heap, m.heap.malloc true 1000 = .ok (ap, heap) ∧
        (ap = 0 ∨ 1008 ≤ (heap.block (ap - headerSize)).bytes)) ∧
      (units 1000).toNat = 126 ∧ (moreBytes (units 1000)).toInt = 32768 := by
  obtain ⟨m, reached, -⟩ := Transition.exists_of_ends
    (show Transition.ends (fun _ => true) (Transition.run step smallProgram.boot smallRun) = true by
      decide +kernel)
  have fits : Fits 1000 := by decide
  obtain ⟨room, exact'⟩ := malloc_room reached 1000 true
  exact ⟨m, reached, fits, room fits, exact'.mp fits⟩

/-- A request of `2^32 - 1` bytes is rounded to one unit, so the block has its header and nothing
else, and for one of `2^31` bytes `sbrk` is asked for a negative amount. -/
theorem malloc_wraps :
    (∃ ap heap, smallProgram.boot.heap.malloc true 0xFFFFFFFF = .ok (ap, heap) ∧ ap ≠ 0 ∧
      (heap.block (ap - headerSize)).bytes = 8) ∧
    (moreBytes (units 0x80000000)).toInt < 0 := by
  refine ⟨?_, by decide⟩
  obtain ⟨⟨ap, heap⟩, returned, shape⟩ := Transition.exists_of_ends
    (show Transition.ends (fun result : Word × Heap => decide (result.1 ≠ 0 ∧
      (result.2.block (result.1 - headerSize)).bytes = 8))
        (smallProgram.boot.heap.malloc true 0xFFFFFFFF) = true by decide +kernel)
  exact ⟨ap, heap, returned, of_decide_eq_true shape⟩

end HeapSystem

end Xv6
