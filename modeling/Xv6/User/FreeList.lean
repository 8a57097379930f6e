import Mathlib.Tactic.Common
import Xv6.Library.Circular
import Xv6.User.Malloc

/-!
# The list of free blocks

The blocks that are free form a circle in the order of their addresses that starts with the empty
block `base`, no two of them touch, and together with the blocks in use they tile the memory
obtained from `sbrk`. `free` finds the place of a block in the circle, joins it with its
neighbours and changes nothing in the blocks in use.
-/

namespace Xv6

open List (mem_append_right mem_append_left mem_cons_of_mem pairwise_cons mem_cons_self cons_append
  mem_cons length_cons mem_append append_assoc pairwise_append headD_cons headD_nil map_cons
  count_append count_cons cons mem_pair)
open Bytes (Byte load store load_store load_congr store_other load_store_other)
open Circular (Path path_nil path_cons path_append path_split)
open Tiling

namespace Heap

variable {h h' : Heap} {p q bp : Word} {nodes front back : List Word} {others : List Extent}
  {area : Nat → Prop}

def Apart (p q : Word) : Prop := p.toNat + 8 ≤ q.toNat ∨ q.toNat + 8 ≤ p.toNat

@[simp]
theorem ptr_setPtr (v : Word) : (h.setPtr p v).ptr p = v := load_store v

@[simp]
theorem size_setPtr (v : Word) : (h.setPtr p v).size p = h.size p :=
  load_store_other v (by omega)

@[simp]
theorem size_setSize (v : Word) : (h.setSize p v).size p = v := load_store v

@[simp]
theorem ptr_setSize (v : Word) : (h.setSize p v).ptr p = h.ptr p :=
  load_store_other v (by omega)

structure Edits (h h' : Heap) (headers : List Word) : Prop where
  memory : ∀ x, (∀ p ∈ headers, ¬ (Extent.mk p.toNat 8).Has x) → h'.memory x = h.memory x
  base : h'.base = h.base
  sz : h'.sz = h.sz

theorem edits_setPtr (v : Word) : Edits h (h.setPtr p v) [p] := by
  refine ⟨fun x outside => ?_, rfl, rfl⟩
  have apart := outside p (List.mem_singleton_self p)
  simp only [Extent.Has] at apart
  exact store_other v (by omega)

theorem edits_setSize (v : Word) : Edits h (h.setSize p v) [p] := by
  refine ⟨fun x outside => ?_, rfl, rfl⟩
  have apart := outside p (List.mem_singleton_self p)
  simp only [Extent.Has] at apart
  exact store_other v (by omega)

variable {headers headers' : List Word} {others' : List Extent}

theorem Edits.trans {h'' : Heap} (first : Edits h h' headers) (second : Edits h' h'' headers') :
    Edits h h'' (headers ++ headers') where
  memory x outside := by
    rw [second.memory x fun p member => outside p (mem_append_right _ member),
      first.memory x fun p member => outside p (mem_append_left _ member)]
  base := second.base.trans first.base
  sz := second.sz.trans first.sz

theorem Edits.mono (edits : Edits h h' headers) (sub : headers ⊆ headers') : Edits h h' headers' :=
  { edits with memory := fun x outside => edits.memory x fun p member => outside p (sub member) }

theorem header_congr (same : ∀ x, q.toNat ≤ x → x < q.toNat + 8 → h'.memory x = h.memory x) :
    h'.ptr q = h.ptr q ∧ h'.size q = h.size q :=
  ⟨load_congr fun x low high => same x low (by omega),
    load_congr fun x low high => same x (by omega) (by omega)⟩

theorem Edits.header {headers : List Word} (edits : Edits h h' headers)
    (apart : ∀ p ∈ headers, Apart q p) : h'.ptr q = h.ptr q ∧ h'.size q = h.size q := by
  refine header_congr fun x low high => edits.memory x fun p member inside => ?_
  have away := apart p member
  simp only [Apart, Extent.Has] at away inside
  omega

def stop (h : Heap) (p : Word) : Nat := p.toNat + (h.size p).toNat * 8

structure FreeList (h : Heap) (nodes : List Word) : Prop where
  circle : Path h.ptr h.base (h.base :: nodes) h.base
  start : h.freep ∈ h.base :: nodes
  empty : h.size h.base = 0
  some : ∀ a ∈ nodes, 0 < (h.size a).toNat
  separate : nodes.Pairwise fun a b => h.stop a < b.toNat

structure Wf (h : Heap) (nodes : List Word) (others : List Extent) (area : Nat → Prop) : Prop where
  list : h.FreeList nodes
  tiles : Tiles ((h.base :: nodes).map h.block ++ others) area
  inside : ∀ x, area x → h.base.toNat + 8 ≤ x ∧ x < h.sz.toNat
  base_pos : 0 < h.base.toNat
  base_lt : h.base.toNat + 8 ≤ h.sz.toNat
  sz_lt : h.sz.toNat < 2 ^ 31

section

variable (wf : h.Wf nodes others area)
include wf

theorem Wf.relisted {nodes' : List Word} (base : h'.base = h.base)
    (longer : h.sz.toNat ≤ h'.sz.toNat) (sz_lt : h'.sz.toNat < 2 ^ 31) (list : h'.FreeList nodes')
    (tiles : Tiles ((h.base :: nodes').map h'.block ++ others') area) :
    h'.Wf nodes' others' area := by
  have low := wf.base_lt
  rw [← base] at tiles low
  refine ⟨list, tiles, fun x covered => ?_, by rw [base]; exact wf.base_pos, by omega, sz_lt⟩
  have inside := wf.inside x covered
  rw [base]
  omega

theorem Wf.block_inside {b : Extent} (member : b ∈ (h.base :: nodes).map h.block ++ others)
    (some : 0 < b.bytes) : h.base.toNat + 8 ≤ b.start ∧ b.start + b.bytes ≤ h.sz.toNat := by
  have first := wf.inside b.start ((wf.tiles.covers _).mpr ⟨b, member, by unfold Extent.Has; omega⟩)
  have last := wf.inside (b.start + b.bytes - 1)
    ((wf.tiles.covers _).mpr ⟨b, member, by unfold Extent.Has; omega⟩)
  omega

theorem Wf.node_inside (member : p ∈ nodes) :
    h.base.toNat + 8 ≤ p.toNat ∧ h.stop p ≤ h.sz.toNat ∧ p.toNat + 8 ≤ h.stop p := by
  have some := wf.list.some p member
  have listed : h.block p ∈ (h.base :: nodes).map h.block ++ others :=
    mem_append_left _ (List.mem_map_of_mem (mem_cons_of_mem _ member))
  have inside := wf.block_inside listed (by simp only [block]; omega)
  simp only [block] at inside
  unfold stop
  omega

theorem Wf.ordered :
    (h.base :: nodes).Pairwise fun a b => a.toNat + 8 ≤ b.toNat ∧ h.stop a < b.toNat := by
  refine pairwise_cons.mpr ⟨fun a member => ?_, ?_⟩
  · have inside := wf.node_inside member
    have empty : (h.size h.base).toNat = 0 := by rw [wf.list.empty]; rfl
    unfold stop
    omega
  · refine wf.list.separate.imp_of_mem fun {a b} memberA memberB before => ?_
    have inside := wf.node_inside memberA
    omega

end

theorem mem_with {α : Type} {front rest : List α} {a : α} (x : α) (member : a ∈ front ++ rest) :
    a ∈ front ++ x :: rest :=
  (List.Sublist.append_left (List.sublist_cons_self x rest) front).subset member

theorem split_sorted {first : Word} {rest : List Word} {x : Nat}
    (sorted : (first :: rest).Pairwise fun a b => a.toNat ≤ b.toNat) (before : first.toNat < x)
    (absent : ∀ a ∈ rest, a.toNat ≠ x) :
    ∃ front p back, first :: rest = front ++ p :: back ∧ (∀ a ∈ front, a.toNat < x) ∧
      p.toNat < x ∧ ∀ a ∈ back, x < a.toNat := by
  induction rest generalizing first with
  | nil => exact ⟨[], first, [], rfl, by nofun, before, by nofun⟩
  | cons next rest ih =>
    obtain ⟨low, sorted⟩ := pairwise_cons.mp sorted
    have other := absent next mem_cons_self
    by_cases later : next.toNat < x
    · obtain ⟨front, p, back, split, lower, here, upper⟩ :=
        ih sorted later fun a member => absent a (mem_cons_of_mem _ member)
      refine ⟨first :: front, p, back, by rw [split, cons_append], ?_, here, upper⟩
      intro a member
      rcases mem_cons.mp member with rfl | further
      · exact before
      · exact lower a further
    · refine ⟨[], first, next :: rest, rfl, by nofun, before, ?_⟩
      intro a member
      have high := (pairwise_cons.mp sorted).1
      rcases mem_cons.mp member with rfl | further
      · omega
      · have least := high a further
        omega

theorem length_le {list : List Word} {low high : Nat}
    (ordered : list.Pairwise fun a b => a.toNat + 8 ≤ b.toNat)
    (inside : ∀ a ∈ list, low ≤ a.toNat ∧ a.toNat < high) (space : low ≤ high) :
    list.length * 8 ≤ high - low + 8 := by
  induction list generalizing low with
  | nil => simp
  | cons first rest ih =>
    obtain ⟨later, ordered⟩ := pairwise_cons.mp ordered
    have here := inside first mem_cons_self
    rw [length_cons]
    by_cases last : rest = []
    · rw [last]
      simp only [List.length_nil]
      omega
    · obtain ⟨next, member⟩ := List.exists_mem_of_ne_nil rest last
      have behind := later next member
      have bound := inside next (mem_cons_of_mem _ member)
      have fewer : rest.length * 8 ≤ high - (first.toNat + 8) + 8 := ih ordered
        (fun a member => ⟨later a member, (inside a (mem_cons_of_mem _ member)).2⟩) (by omega)
      omega

theorem Wf.length_lt (wf : h.Wf nodes others area) : 2 * (nodes.length + 2) < turns := by
  have inside : ∀ a ∈ h.base :: nodes, 0 ≤ a.toNat ∧ a.toNat < 2 ^ 31 := by
    intro a member
    have high := wf.sz_lt
    rcases mem_cons.mp member with rfl | later
    · have low := wf.base_lt
      omega
    · have inside := wf.node_inside later
      omega
  have bound := length_le (wf.ordered.imp fun both => both.1) inside (by omega)
  rw [length_cons] at bound
  unfold turns
  omega

theorem FreeList.ptr_eq (list : h.FreeList nodes) (front : List Word)
    (split : h.base :: nodes = front ++ p :: back) :
    h.ptr p = back.headD h.base := by
  have circle := list.circle
  rw [split] at circle
  have after := (path_split.mp circle).2
  cases back with
  | nil => exact path_nil.mp after
  | cons next back => exact (path_cons.mp after).1

section

variable (wf : h.Wf nodes others area) (low : h.base.toNat < bp.toNat)
  (split : h.base :: nodes = front ++ p :: back) (lower : ∀ a ∈ front, a.toNat < bp.toNat)
  (here : p.toNat < bp.toNat) (upper : ∀ a ∈ back, bp.toNat < a.toNat)
include wf low split lower here upper

theorem Wf.passes (member : q ∈ h.base :: nodes) (other : q ≠ p) :
    ¬ (q < bp ∧ bp < h.ptr q) ∧ ¬ (h.ptr q ≤ q ∧ (q < bp ∨ bp < h.ptr q)) := by
  have ordered := wf.ordered
  rw [split] at member ordered
  rw [mem_append, mem_cons] at member
  simp only [BitVec.lt_def, BitVec.le_def]
  rcases member with inFront | same | inBack
  · -- before the place: the next block is before it too
    obtain ⟨before, after, rfl⟩ := List.append_of_mem inFront
    have next : h.ptr q = (after ++ p :: back).headD h.base :=
      wf.list.ptr_eq before (by rw [split, append_assoc, cons_append])
    rw [append_assoc, pairwise_append] at ordered
    have later := (pairwise_cons.mp ordered.2.1).1
    have below := lower q inFront
    cases after with
    | nil =>
      simp only [List.nil_append, headD_cons] at next
      have order := later p (by simp)
      rw [next]
      omega
    | cons r after =>
      simp only [cons_append, headD_cons] at next
      have order := later r (by simp)
      have lower := lower r (by simp)
      rw [next]
      omega
  · exact absurd same other
  · -- behind the place: the next block is further behind or it is `base`
    obtain ⟨before, after, rfl⟩ := List.append_of_mem inBack
    have next : h.ptr q = after.headD h.base :=
      wf.list.ptr_eq (front ++ p :: before) (by rw [split, append_assoc, cons_append])
    have above := upper q inBack
    cases after with
    | nil =>
      simp only [headD_nil] at next
      rw [next]
      omega
    | cons r after =>
      simp only [headD_cons] at next
      have order : q.toNat + 8 ≤ r.toNat := by
        have pair : [q, r].Sublist (front ++ p :: (before ++ q :: r :: after)) := by
          refine List.Sublist.trans ?_ (List.sublist_append_right _ _)
          refine List.Sublist.cons _ (List.Sublist.trans ?_ (List.sublist_append_right _ _))
          simp
        have ordered := ordered.sublist pair
        simp only [pairwise_cons, List.mem_singleton, forall_eq] at ordered
        exact ordered.1.1
      rw [next]
      omega

theorem Wf.place_eq : h.place bp turns h.freep = .ok p := by
  have target : p ∈ h.base :: nodes := by simp [split]
  obtain ⟨way, path, first, sub, short⟩ := wf.list.circle.leads wf.list.start target
  have stops : ∀ turns, 0 < turns → h.place bp turns p = .ok p := by
    intro turns some
    obtain ⟨turns, rfl⟩ : ∃ n, turns = n + 1 := ⟨turns - 1, by omega⟩
    have next := wf.list.ptr_eq front split
    simp only [place, BitVec.lt_def, BitVec.le_def]
    cases back with
    | nil =>
      have base : h.base.toNat ≤ p.toNat := by
        rcases mem_cons.mp target with rfl | later
        · exact Nat.le_refl _
        · have inside := wf.node_inside later
          omega
      simp only [headD_nil] at next
      rw [next, if_neg (by omega), if_pos (by omega)]
    | cons r back =>
      simp only [headD_cons] at next
      have above := upper r mem_cons_self
      rw [next, if_pos (by omega)]
  have walks : ∀ (way : List Word) (start : Word) (turns : Nat), Path h.ptr start way p →
      p ∉ way → way ⊆ h.base :: nodes → way.length < turns → h.place bp turns start = .ok p := by
    intro way
    induction way with
    | nil =>
      intro start turns path _ _ enough
      rw [path_nil.mp path]
      exact stops turns enough
    | cons q way ih =>
      intro start turns path absent sub enough
      obtain ⟨rfl, path⟩ := path_cons.mp path
      obtain ⟨turns, rfl⟩ : ∃ n, turns = n + 1 := ⟨turns - 1, by omega⟩
      have pass := wf.passes low split lower here upper (sub mem_cons_self)
        (fun same => absent (same ▸ mem_cons_self))
      simp only [place]
      rw [if_neg pass.1, if_neg pass.2]
      rw [length_cons] at enough
      exact ih _ turns path (fun member => absent (mem_cons_of_mem _ member))
        (fun a member => sub (mem_cons_of_mem _ member)) (by omega)
  have enough := wf.length_lt
  rw [length_cons] at short
  exact walks way h.freep turns path first sub (by omega)

end

theorem plus_toNat {n : Word} (bound : p.toNat + n.toNat * 8 < 2 ^ 32) :
    (plus p n).toNat = p.toNat + n.toNat * 8 := by
  unfold plus headerSize
  rw [BitVec.toNat_add, BitVec.toNat_mul]
  have eight : (8 : Word).toNat = 8 := rfl
  rw [eight, Nat.mod_eq_of_lt (by omega : n.toNat * 8 < 2 ^ 32), Nat.mod_eq_of_lt bound]

section

variable (wf : h.Wf nodes (h.block bp :: others) area) (some : 0 < (h.size bp).toNat)
include wf some

theorem Wf.beside (member : q ∈ nodes) : h.stop bp ≤ q.toNat ∨ h.stop q ≤ bp.toNat := by
  have first := wf.tiles.perm List.perm_middle
  have disjoint := first.head (b := h.block q)
    (mem_append_left _ (List.mem_map_of_mem (mem_cons_of_mem _ member)))
  have full := wf.list.some q member
  exact disjoint.before (by simp only [block]; omega) (by simp only [block]; omega)

theorem Wf.other_inside :
    h.base.toNat + 8 ≤ bp.toNat ∧ h.stop bp ≤ h.sz.toNat ∧ bp.toNat + 8 ≤ h.stop bp := by
  have listed : h.block bp ∈ (h.base :: nodes).map h.block ++ h.block bp :: others := by simp
  have inside := wf.block_inside listed (by simp only [block]; omega)
  simp only [block] at inside
  unfold stop
  omega

theorem Wf.before (member : q ∈ h.base :: nodes) (low : q.toNat < bp.toNat) :
    q.toNat + 8 ≤ bp.toNat ∧ h.stop q ≤ bp.toNat := by
  have inside := wf.other_inside some
  rcases mem_cons.mp member with rfl | later
  · have empty : (h.size h.base).toNat = 0 := by rw [wf.list.empty]; rfl
    unfold stop
    omega
  · have node := wf.node_inside later
    have beside := wf.beside some later
    omega

end

theorem Wf.plus_eq_iff (wf : h.Wf nodes others area) (high : h.stop p ≤ h.sz.toNat) :
    plus p (h.size p) = q ↔ h.stop p = q.toNat := by
  have top := wf.sz_lt
  have value : (plus p (h.size p)).toNat = h.stop p := by
    unfold stop at high ⊢
    exact plus_toNat (by omega)
  rw [← value]
  exact BitVec.toNat_inj.symm

theorem size_add {m n : Word} (bound : (m.toNat + n.toNat) * 8 < 2 ^ 32) :
    (m + n).toNat = m.toNat + n.toNat := by
  rw [BitVec.toNat_add]
  exact Nat.mod_eq_of_lt (by omega)

/-- A block has taken over the blocks `olds` that it touched and points to those behind them. -/
structure Absorbs (h g : Heap) (bp : Word) (olds back : List Word) (area : Nat → Prop) : Prop where
  edits : Edits h g [bp]
  link : g.ptr bp = back.headD h.base
  behind : ∀ a ∈ back, g.stop bp < a.toNat
  grown : (h.size bp).toNat ≤ (g.size bp).toNat
  high : g.stop bp ≤ h.sz.toNat
  retile : ∀ rest, Tiles (h.block bp :: (olds.map h.block ++ rest)) area →
    Tiles (g.block bp :: rest) area

theorem Wf.joinNext (wf : h.Wf nodes (h.block bp :: others) area) (some : 0 < (h.size bp).toNat)
    (split : h.base :: nodes = front ++ p :: back) (here : p.toNat < bp.toNat)
    (upper : ∀ a ∈ back, bp.toNat < a.toNat) :
    ∃ olds back', back = olds ++ back' ∧ Absorbs h (h.joinNext p bp) bp olds back' area := by
  have inside := wf.other_inside some
  have next := wf.list.ptr_eq front split
  have test : ∀ q, plus bp (h.size bp) = q ↔ h.stop bp = q.toNat :=
    fun q => wf.plus_eq_iff inside.2.1
  -- without a join the block points to the next one
  have plain : h.stop bp ≠ (h.ptr p).toNat → (∀ a ∈ back, h.stop bp < a.toNat) →
      Absorbs h (h.joinNext p bp) bp [] back area := by
    intro gap behind
    rw [show h.joinNext p bp = h.setPtr bp (h.ptr p) from if_neg fun same => gap ((test _).mp same)]
    refine ⟨edits_setPtr _, ?_, ?_, ?_, ?_, fun rest tiles => ?_⟩
    · rw [ptr_setPtr, next]
    · simpa only [stop, size_setPtr] using behind
    · rw [size_setPtr]
    · simpa only [stop, size_setPtr] using inside.2.1
    · rw [block, size_setPtr]
      exact tiles
  cases back with
  | nil => exact ⟨[], [], rfl, plain (by rw [next, headD_nil]; omega) (by nofun)⟩
  | cons y ys =>
    simp only [headD_cons] at next
    have inNodes : y ∈ nodes := by
      have member : y ∈ h.base :: nodes := by simp [split]
      refine (mem_cons.mp member).resolve_left fun same => ?_
      have above := upper y mem_cons_self
      rw [same] at above
      omega
    have node := wf.node_inside inNodes
    have behind : h.stop bp ≤ y.toNat := by
      have above := upper y mem_cons_self
      have beside := wf.beside some inNodes
      omega
    have ordered := wf.ordered
    rw [split, pairwise_append] at ordered
    have further := (pairwise_cons.mp (pairwise_cons.mp ordered.2.1).2).1
    by_cases touches : h.stop bp = y.toNat
    · have apart : Apart y bp := .inr (by omega)
      have shape : h.joinNext p bp =
          (h.setSize bp (h.size bp + h.size y)).setPtr bp (h.ptr y) := by
        unfold Heap.joinNext
        have before := (wf.before some (q := p) (by simp [split]) here).1
        have sized := edits_setSize (h := h) (p := bp) (h.size bp + h.size y)
        have atP := (sized.header (q := p) (by simp [Apart, before])).1
        have atY := (sized.header (q := y) (by simpa using apart)).1
        rw [if_pos ((test _).mpr (by rw [next]; exact touches)), next]
        simp only [atP, next, atY]
      have sum : (h.size bp + h.size y).toNat = (h.size bp).toNat + (h.size y).toNat := by
        have top := wf.sz_lt
        unfold stop at node touches
        exact size_add (by omega)
      have ends : (h.joinNext p bp).stop bp = h.stop y := by
        unfold stop at touches ⊢
        rw [shape, size_setPtr, size_setSize, sum]
        omega
      refine ⟨[y], ys, rfl, ?_, ?_, fun a member => ?_, ?_, ?_, fun rest tiles => ?_⟩
      · rw [shape]
        exact ((edits_setSize _).trans (edits_setPtr _)).mono (by simp)
      · rw [shape, ptr_setPtr]
        exact wf.list.ptr_eq (front ++ [p]) (by rw [split, append_assoc]; rfl)
      · rw [ends]
        exact (further a member).2
      · rw [shape, size_setPtr, size_setSize, sum]
        omega
      · rw [ends]
        exact node.2.1
      · have second : h.block y = ⟨bp.toNat + (h.size bp).toNat * 8, (h.size y).toNat * 8⟩ := by
          unfold stop at touches
          simp only [block, ← touches]
        rw [shape, block, size_setPtr, size_setSize, sum, Nat.add_mul, ← tiles_join, ← second]
        exact tiles
    · refine ⟨[], y :: ys, rfl, plain (by rw [next]; exact touches) fun a member => ?_⟩
      rcases mem_cons.mp member with rfl | later
      · omega
      · have order := further a later
        omega

theorem Wf.header_outside (wf : h.Wf nodes others area) (member : q ∈ h.base :: nodes) {b : Extent}
    (other : b ∈ others) {x : Nat} (inside : b.Has x) : ¬ (Extent.mk q.toNat 8).Has x := by
  intro inHeader
  have covered := wf.inside x ((wf.tiles.covers x).mpr ⟨b, mem_append_right _ other, inside⟩)
  simp only [Extent.Has] at inHeader
  rcases mem_cons.mp member with rfl | later
  · omega
  · have node := wf.node_inside later
    have apart := (pairwise_append.mp wf.tiles.disjoint).2.2 (h.block q)
      (List.mem_map_of_mem member) b other
    refine apart x ?_ inside
    unfold stop at node
    simp only [block, Extent.Has]
    omega

theorem map_block_congr {list : List Word} (kept : ∀ a ∈ list, h'.size a = h.size a) :
    list.map h'.block = list.map h.block :=
  List.map_congr_left fun a member => by rw [block, block, kept a member]

/-- A block of the list stays in it, and those behind it, `olds`, are replaced by `mids`. -/
structure Replaces (h h' : Heap) (p : Word) (olds mids back : List Word)
    (others others' : List Extent) (area : Nat → Prop) : Prop where
  edits : ∃ headers, Edits h h' headers ∧
    ∀ r ∈ headers, p.toNat ≤ r.toNat ∧ ∀ b ∈ back, r.toNat + 8 ≤ b.toNat
  links : Path h'.ptr (h'.ptr p) mids (back.headD h.base)
  empty : p = h.base → h'.size p = 0
  some : ∀ a ∈ p :: mids, a ≠ h.base → 0 < (h'.size a).toNat
  separate : (p :: mids).Pairwise fun a b => h'.stop a < b.toNat
  place : ∀ a ∈ p :: mids, p.toNat ≤ a.toNat ∧ ∀ b ∈ back, h'.stop a < b.toNat
  retile : ∀ rest, Tiles ((p :: olds).map h.block ++ (rest ++ others)) area →
    Tiles ((p :: mids).map h'.block ++ (rest ++ others')) area

theorem Wf.replaced {olds mids : List Word} (wf : h.Wf nodes others area)
    (split : h.base :: nodes = front ++ p :: (olds ++ back))
    (replaces : Replaces h h' p olds mids back others others' area)
    (start : h'.freep ∈ front ++ p :: (mids ++ back)) :
    ∃ nodes', front ++ p :: (mids ++ back) = h.base :: nodes' ∧ h'.Wf nodes' others' area := by
  obtain ⟨headers, edits, span⟩ := replaces.edits
  have ordered := wf.ordered
  rw [split] at ordered
  obtain ⟨inFront, rest, across⟩ := pairwise_append.mp ordered
  have inBack := (pairwise_append.mp (pairwise_cons.mp rest).2).2.1
  have kept : ∀ a, a ∈ front ∨ a ∈ back → h'.ptr a = h.ptr a ∧ h'.size a = h.size a := by
    intro a member
    refine edits.header fun r isEdited => ?_
    have near := span r isEdited
    rcases member with early | late
    · have order := (across a early p mem_cons_self).1
      exact .inl (by omega)
    · exact .inr (near.2 a late)
  have stops : ∀ a, a ∈ front ∨ a ∈ back → h'.stop a = h.stop a := fun a member => by
    rw [stop, stop, (kept a member).2]
  have circle : Path h'.ptr h.base (front ++ p :: (mids ++ back)) h.base := by
    have old := wf.list.circle
    rw [split] at old
    obtain ⟨toP, fromP⟩ := path_split.mp old
    obtain ⟨target, -, toEnd⟩ := path_append.mp fromP
    have isTarget : target = back.headD h.base := by
      cases back with
      | nil => exact path_nil.mp toEnd
      | cons => exact (path_cons.mp toEnd).1
    refine path_split.mpr ⟨toP.congr fun a member => (kept a (.inl member)).1,
      path_append.mpr ⟨target, isTarget ▸ replaces.links, ?_⟩⟩
    exact toEnd.congr fun a member => (kept a (.inr member)).1
  have separate : (front ++ p :: (mids ++ back)).Pairwise fun a b => h'.stop a < b.toNat := by
    rw [← cons_append]
    refine pairwise_append.mpr ⟨?_, pairwise_append.mpr ⟨replaces.separate, ?_,
      fun a member => (replaces.place a member).2⟩, fun a early b late => ?_⟩
    · exact inFront.imp_of_mem fun {a b} member _ before => by
        rw [stops a (.inl member)]
        exact before.2
    · exact inBack.imp_of_mem fun {a b} member _ before => by
        rw [stops a (.inr member)]
        exact before.2
    · rw [stops a (.inl early)]
      rcases mem_append.mp late with mid | behind
      · have order := (across a early p mem_cons_self).2
        have place := (replaces.place b mid).1
        omega
      · exact (across a early b (by simp [behind])).2
  have tiles : Tiles ((front ++ p :: (mids ++ back)).map h'.block ++ others') area := by
    have old := wf.tiles
    rw [split] at old
    have new := replaces.retile ((front ++ back).map h.block) (old.perm (by
      refine List.perm_iff_count.mpr fun b => ?_
      simp only [List.map_append, map_cons, count_append, count_cons]
      omega))
    have same : (front ++ back).map h'.block = (front ++ back).map h.block :=
      map_block_congr fun a member => (kept a (mem_append.mp member)).2
    rw [← same] at new
    refine new.perm (List.perm_iff_count.mpr fun b => ?_)
    simp only [List.map_append, map_cons, count_append, count_cons]
    omega
  -- `base` is the first block of the list before and after
  obtain ⟨nodes', ring, empty⟩ : ∃ nodes', front ++ p :: (mids ++ back) = h.base :: nodes' ∧
      h'.size h.base = 0 := by
    cases front with
    | nil =>
      obtain ⟨isP, -⟩ := cons.inj split
      exact ⟨mids ++ back, by rw [isP]; rfl, by rw [isP]; exact replaces.empty isP.symm⟩
    | cons first front =>
      obtain ⟨isFirst, -⟩ := cons.inj split
      refine ⟨front ++ p :: (mids ++ back), by rw [isFirst]; rfl, ?_⟩
      rw [(kept h.base (.inl (isFirst ▸ mem_cons_self))).2]
      exact wf.list.empty
  refine ⟨nodes', ring, ?_⟩
  have some : ∀ a ∈ front ++ p :: (mids ++ back), a ≠ h.base → 0 < (h'.size a).toNat := by
    intro a member other
    have old : a ∈ front ∨ a ∈ back → 0 < (h'.size a).toNat := fun stays => by
      have listed : a ∈ h.base :: nodes := by
        rw [split]
        rcases stays with early | late
        · exact mem_append_left _ early
        · simp [late]
      rw [(kept a stays).2]
      exact wf.list.some a ((mem_cons.mp listed).resolve_left other)
    rw [← cons_append, mem_append, mem_append] at member
    rcases member with early | mid | late
    · exact old (.inl early)
    · exact replaces.some a mid other
    · exact old (.inr late)
  rw [ring] at circle separate tiles start some
  obtain ⟨least, separate⟩ := pairwise_cons.mp separate
  rw [← edits.base] at circle start empty
  refine wf.relisted edits.base (by rw [edits.sz]) (by rw [edits.sz]; exact wf.sz_lt)
    ⟨circle, start, empty, fun a member => ?_, separate⟩ tiles
  refine some a (mem_cons_of_mem _ member) fun same => ?_
  have low := least a member
  rw [same] at low
  unfold stop at low
  omega

theorem Wf.joinPrevious {olds : List Word} {g : Heap}
    (wf : h.Wf nodes (h.block bp :: others) area) (some : 0 < (h.size bp).toNat)
    (member : p ∈ h.base :: nodes) (here : p.toNat < bp.toNat)
    (absorbs : Absorbs h g bp olds back area) :
    ∃ mids, Replaces h { g.joinPrevious p bp with freep := p } p olds mids back
        (h.block bp :: others) others area ∧ Edits h (g.joinPrevious p bp) [bp, p] ∧
      ∃ a ∈ p :: mids, a ≠ h.base ∧ (h.size bp).toNat ≤ ((g.joinPrevious p bp).size a).toNat := by
  obtain ⟨edits, link, behind, grown, high, retile⟩ := absorbs
  have inside := wf.other_inside some
  have top := wf.sz_lt
  obtain ⟨apart, reaches⟩ := wf.before some member here
  obtain ⟨-, sizeP⟩ := edits.header (q := p) (by simp [Apart, apart])
  have stopP : g.stop p = h.stop p := by rw [stop, stop, sizeP]
  have full : g.stop bp = bp.toNat + (g.size bp).toNat * 8 := rfl
  have span : ∀ r ∈ [bp, p], p.toNat ≤ r.toNat ∧ ∀ b ∈ back, r.toNat + 8 ≤ b.toNat := by
    simp only [mem_cons, List.not_mem_nil, or_false, forall_eq_or_imp, forall_eq]
    refine ⟨⟨by omega, fun b late => ?_⟩, Nat.le_refl _, fun b late => ?_⟩ <;>
    · have order := behind b late
      omega
  have test : plus p (g.size p) = bp ↔ g.stop p = bp.toNat := by
    have value : (plus p (g.size p)).toNat = g.stop p := by
      rw [stop] at stopP ⊢
      exact plus_toNat (by omega)
    rw [← value]
    exact BitVec.toNat_inj.symm
  have joined : ∀ rest, Tiles ((p :: olds).map h.block ++ (rest ++ h.block bp :: others)) area →
      Tiles (g.block p :: g.block bp :: (rest ++ others)) area := by
    intro rest tiles
    have new := retile (h.block p :: (rest ++ others)) (tiles.perm (by
      refine List.perm_iff_count.mpr fun b => ?_
      simp only [map_cons, count_append, count_cons]
      omega))
    rw [show g.block p = h.block p by rw [block, block, sizeP]]
    exact new.perm (List.Perm.swap ..)
  by_cases touches : g.stop p = bp.toNat
  · -- the block before takes over the new one
    have notBase : p ≠ h.base := by
      rintro rfl
      rw [stop, sizeP, wf.list.empty, show (0 : Word).toNat = 0 from rfl] at touches
      omega
    have sum : (g.size p + g.size bp).toNat = (g.size p).toNat + (g.size bp).toNat := by
      unfold stop at touches high
      exact size_add (by omega)
    have shape :
        g.joinPrevious p bp = (g.setSize p (g.size p + g.size bp)).setPtr p (g.ptr bp) := by
      have same := ((edits_setSize (h := g) (p := p) (g.size p + g.size bp)).header (q := bp)
        (by simp [Apart, apart])).1
      unfold Heap.joinPrevious
      rw [if_pos (test.mpr touches)]
      simp only [same]
    have edits' : Edits g (g.joinPrevious p bp) [p] := by
      rw [shape]
      exact ((edits_setSize _).trans (edits_setPtr _)).mono (by simp)
    have sized : (g.joinPrevious p bp).size p = g.size p + g.size bp := by
      rw [shape, size_setPtr, size_setSize]
    have ends : (g.joinPrevious p bp).stop p = g.stop bp := by
      unfold stop at touches ⊢
      rw [sized, sum]
      omega
    have linked : (g.joinPrevious p bp).ptr p = back.headD h.base := by rw [shape, ptr_setPtr, link]
    have both := edits.trans edits'
    refine ⟨[], ⟨⟨_, ⟨both.memory, both.base, both.sz⟩, span⟩, path_nil.mpr linked,
      fun isBase => absurd isBase notBase, ?_, List.pairwise_singleton _ _, ?_,
      fun rest tiles => ?_⟩, both, p, mem_cons_self, notBase, ?_⟩
    · rw [List.forall_mem_singleton]
      show p ≠ h.base → 0 < ((g.joinPrevious p bp).size p).toNat
      rw [sized, sum]
      omega
    · rw [List.forall_mem_singleton]
      show p.toNat ≤ p.toNat ∧ ∀ b ∈ back, (g.joinPrevious p bp).stop p < b.toNat
      rw [ends]
      exact ⟨Nat.le_refl _, behind⟩
    · show Tiles ((g.joinPrevious p bp).block p :: (rest ++ others)) area
      have second : g.block bp = ⟨p.toNat + (g.size p).toNat * 8, (g.size bp).toNat * 8⟩ := by
        unfold stop at touches
        simp only [block, touches]
      rw [block, sized, sum, Nat.add_mul, ← tiles_join, ← second]
      exact joined rest tiles
    · rw [sized, sum]
      omega
  · have shape : g.joinPrevious p bp = g.setPtr p bp := if_neg fun same => touches (test.mp same)
    have atBp := (edits_setPtr (h := g) (p := p) bp).header (q := bp) (by simp [Apart, apart])
    have both : Edits h (g.setPtr p bp) [bp, p] := edits.trans (edits_setPtr bp)
    rw [shape]
    have sizes : ∀ a ∈ [p, bp], (g.setPtr p bp).size a = g.size a := by
      simp only [mem_cons, List.not_mem_nil, or_false, forall_eq_or_imp, forall_eq]
      exact ⟨size_setPtr bp, atBp.2⟩
    have stops : ∀ a ∈ [p, bp], (g.setPtr p bp).stop a = g.stop a := fun a listed => by
      rw [stop, stop, sizes a listed]
    refine ⟨[bp], ⟨⟨_, ⟨both.memory, both.base, both.sz⟩, span⟩, path_cons.mpr ⟨ptr_setPtr bp, ?_⟩,
      fun isBase => ?_, fun a listed other => ?_, ?_, fun a listed => ?_, fun rest tiles => ?_⟩,
      both, bp, by simp, ?_, ?_⟩
    · exact path_nil.mpr (atBp.1.trans link)
    · show (g.setPtr p bp).size p = 0
      rw [size_setPtr, sizeP, isBase]
      exact wf.list.empty
    · show 0 < ((g.setPtr p bp).size a).toNat
      rw [sizes a listed]
      rcases mem_pair.mp listed with rfl | rfl
      · rw [sizeP]
        exact wf.list.some a ((mem_cons.mp member).resolve_left other)
      · omega
    · show [p, bp].Pairwise fun a b => (g.setPtr p bp).stop a < b.toNat
      rw [List.pairwise_pair, stops p (by simp)]
      omega
    · show p.toNat ≤ a.toNat ∧ ∀ b ∈ back, (g.setPtr p bp).stop a < b.toNat
      rw [stops a listed]
      rcases mem_pair.mp listed with rfl | rfl
      · refine ⟨Nat.le_refl _, fun b late => ?_⟩
        have order := behind b late
        omega
      · exact ⟨by omega, behind⟩
    · show Tiles ([p, bp].map (g.setPtr p bp).block ++ (rest ++ others)) area
      rw [map_block_congr sizes]
      exact joined rest tiles
    · rintro rfl
      omega
    · rw [sizes bp (by simp)]
      exact grown

theorem Wf.free (wf : h.Wf nodes (h.block bp :: others) area) (some : 0 < (h.size bp).toNat)
    {ap : Word} (isBp : ap - headerSize = bp) :
    ∃ h' nodes', h.free ap = .ok h' ∧ h'.Wf nodes' others area ∧ h'.base = h.base ∧
      h'.sz = h.sz ∧ (∀ b ∈ others, ∀ x, b.Has x → h'.memory x = h.memory x) ∧
      ∃ a ∈ nodes', (h.size bp).toNat ≤ (h'.size a).toNat := by
  have inside := wf.other_inside some
  have sorted : (h.base :: nodes).Pairwise fun a b => a.toNat ≤ b.toNat :=
    wf.ordered.imp fun both => by omega
  obtain ⟨front, p, back, split, lower, here, upper⟩ :=
    split_sorted sorted (show h.base.toNat < bp.toNat by omega) fun a member => by
      have node := wf.node_inside member
      have beside := wf.beside some member
      omega
  have placed := wf.place_eq (by omega) split lower here upper
  have listed : p ∈ h.base :: nodes := by simp [split]
  obtain ⟨olds, back', rfl, absorbs⟩ := wf.joinNext some split here upper
  obtain ⟨mids, replaces, both, a, member, notBase, big⟩ :=
    wf.joinPrevious some listed here absorbs
  obtain ⟨nodes', ring, wf'⟩ := wf.replaced split replaces (by simp)
  refine ⟨_, nodes', ?_, wf', both.base, both.sz, fun b other x has => ?_, a, ?_, big⟩
  · simp only [Heap.free, isBp, placed, bind, Except.bind, pure, Except.pure]
  · refine both.memory x fun q isEdited inHeader => ?_
    rcases mem_pair.mp isEdited with rfl | rfl
    · have first := wf.tiles.perm List.perm_middle
      refine first.head (mem_append_right _ other) x ?_ has
      simp only [Extent.Has, block] at inHeader ⊢
      omega
    · exact wf.header_outside listed (mem_cons_of_mem _ other) has inHeader
  · have inRing : a ∈ h.base :: nodes' := by
      rw [← ring, ← cons_append]
      exact mem_append_right _ (mem_append_left _ member)
    exact (mem_cons.mp inRing).resolve_left notBase

end Heap

end Xv6
