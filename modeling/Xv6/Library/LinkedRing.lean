import Mathlib.Data.List.Chain
import Mathlib.Data.List.Nodup

/-!
# Doubly linked rings

Nodes of a type hold a pointer to the next and one to the previous node. A ring is a head node and
the list of the other nodes met by following the pointers forward from the head until it is met
again; backward pointers meet the same nodes in the opposite order. The edits are those of an
intrusive list: take a node out, and put one behind the head. A search follows the pointers from
the head, with fuel because arbitrary pointers need not return to it.
-/

namespace LinkedRing

open List (isChain_cons_cons mem_cons_of_mem nodup_cons cons_append mem_cons append_assoc
  mem_cons_self)
open Function (update update_of_ne update_self)

variable {α : Type}

structure Links (α : Type) where
  next : α → α
  prev : α → α

namespace Links

def Joined (l : Links α) (x y : α) : Prop := l.next x = y ∧ l.prev y = x

def flip (l : Links α) : Links α where
  next := l.prev
  prev := l.next

variable [DecidableEq α]

def setNext (l : Links α) (x y : α) : Links α := { l with next := Function.update l.next x y }

def setPrev (l : Links α) (y x : α) : Links α := { l with prev := Function.update l.prev y x }

def unlink (l : Links α) (b : α) : Links α :=
  let l := l.setPrev (l.next b) (l.prev b)
  l.setNext (l.prev b) (l.next b)

/-- Put a node behind the head: `b->next = head->next; b->prev = head; head->next->prev = b;
head->next = b`. -/
def link (l : Links α) (head b : α) : Links α :=
  let l := l.setNext b (l.next head)
  let l := l.setPrev b head
  let l := l.setPrev (l.next head) b
  l.setNext head b

end Links

/-- Follow one kind of pointer from a node to the first that passes the test, or to the head. The
result is missing when the fuel runs out. -/
def seek [DecidableEq α] (follow : α → α) (head : α) (test : α → Bool) :
    Nat → α → Option (Option α)
  | 0, _ => none
  | fuel + 1, node =>
    if node = head then some none
    else if test node then some (some node)
    else seek follow head test fuel (follow node)

structure Ring (l : Links α) (head : α) (nodes : List α) : Prop where
  nodup : (head :: nodes).Nodup
  joined : (head :: (nodes ++ [head])).IsChain l.Joined

variable {l l' : Links α} {head b x : α} {nodes front back : List α}

theorem joined_congr {row : List α} (joined : row.IsChain l.Joined)
    (next : ∀ z ∈ row.dropLast, l'.next z = l.next z)
    (prev : ∀ z ∈ row.tail, l'.prev z = l.prev z) : row.IsChain l'.Joined := by
  induction row with
  | nil => exact .nil
  | cons x rest ih =>
    cases rest with
    | nil => exact .singleton x
    | cons y rest =>
      rw [isChain_cons_cons] at joined ⊢
      obtain ⟨⟨forward, backward⟩, tail⟩ := joined
      refine ⟨⟨?_, ?_⟩, ih tail ?_ ?_⟩
      · rw [next x (by simp), forward]
      · rw [prev y (by simp), backward]
      · intro z member
        exact next z (mem_cons_of_mem _ member)
      · intro z member
        exact prev z (mem_cons_of_mem _ member)

theorem Ring.flip (ring : Ring l head nodes) : Ring l.flip head nodes.reverse where
  nodup := by
    have nodup := ring.nodup
    rw [nodup_cons] at nodup ⊢
    exact ⟨by simpa using nodup.1, List.nodup_reverse.mpr nodup.2⟩
  joined := by
    have backward := List.isChain_reverse.mpr ring.joined
    have row : (head :: (nodes ++ [head])).reverse = head :: (nodes.reverse ++ [head]) := by simp
    rw [row] at backward
    exact backward.imp fun _ _ joined => ⟨joined.2, joined.1⟩

section

variable [DecidableEq α] {fuel : Nat} {test : α → Bool}

theorem seek_row (enough : nodes.length < fuel) (row : (x :: (nodes ++ [head])).IsChain l.Joined)
    (inside : head ∉ nodes) : seek l.next head test fuel (l.next x) = some (nodes.find? test) := by
  induction nodes generalizing x fuel with
  | nil =>
    obtain ⟨fuel, rfl⟩ := Nat.exists_eq_add_one.mpr enough
    have last : l.next x = head := (isChain_cons_cons.mp row).1.1
    simp [seek, last]
  | cons y rest ih =>
    obtain ⟨fuel, rfl⟩ := Nat.exists_eq_add_one.mpr (Nat.zero_lt_of_lt enough)
    rw [cons_append, isChain_cons_cons] at row
    rw [mem_cons, not_or] at inside
    rw [seek, row.1.1, if_neg (Ne.symm inside.1), List.find?_cons]
    cases passes : test y with
    | true => rfl
    | false => exact ih (by simpa using enough) row.2 inside.2

theorem Ring.seek_next (ring : Ring l head nodes) (enough : nodes.length < fuel) :
    seek l.next head test fuel (l.next head) = some (nodes.find? test) :=
  seek_row enough ring.joined (nodup_cons.mp ring.nodup).1

theorem Ring.seek_prev (ring : Ring l head nodes) (enough : nodes.length < fuel) :
    seek l.prev head test fuel (l.prev head) = some (nodes.reverse.find? test) :=
  ring.flip.seek_next (by simpa using enough)

theorem joined_unlink {before after : List α} {y : α}
    (row : (before ++ x :: b :: y :: after).IsChain l.Joined) (apart : b ≠ y)
    (nextBefore : x ∉ before) (nextAfter : x ∉ (y :: after).dropLast)
    (prevBefore : y ∉ (before ++ [x]).tail) (prevAfter : y ∉ after) :
    (before ++ x :: y :: after).IsChain (l.unlink b).Joined := by
  obtain ⟨rowBefore, row⟩ := List.isChain_split.mp row
  obtain ⟨toNode, row⟩ := isChain_cons_cons.mp row
  obtain ⟨fromNode, rowAfter⟩ := isChain_cons_cons.mp row
  have pointers : l.unlink b = (l.setPrev y x).setNext x y := by
    simp only [Links.unlink, Links.setPrev, fromNode.1, toNode.2, update_of_ne apart]
  have next : ∀ z, z ≠ x → (l.unlink b).next z = l.next z := by
    intro z other
    rw [pointers]
    exact update_of_ne other _ _
  have prev : ∀ z, z ≠ y → (l.unlink b).prev z = l.prev z := by
    intro z other
    rw [pointers]
    exact update_of_ne other _ _
  rw [List.isChain_split, isChain_cons_cons]
  refine ⟨joined_congr rowBefore ?_ ?_, ?_, joined_congr rowAfter ?_ ?_⟩
  · intro z member
    rw [List.dropLast_concat] at member
    exact next z (ne_of_mem_of_not_mem member nextBefore)
  · intro z member
    exact prev z (ne_of_mem_of_not_mem member prevBefore)
  · rw [pointers]
    exact ⟨update_self _ _ _, update_self _ _ _⟩
  · intro z member
    exact next z (ne_of_mem_of_not_mem member nextAfter)
  · intro z member
    exact prev z (ne_of_mem_of_not_mem member prevAfter)

theorem Ring.unlink (ring : Ring l head (front ++ b :: back)) :
    Ring (l.unlink b) head (front ++ back) := by
  -- the neighbours are the end of the row before the node and the start of the row behind it
  obtain ⟨before, x, first⟩ : ∃ before x, head :: front = before ++ [x] :=
    ⟨_, _, (List.dropLast_append_getLast (List.cons_ne_nil head front)).symm⟩
  obtain ⟨y, after, second⟩ : ∃ y after, back ++ [head] = y :: after :=
    List.exists_cons_of_ne_nil (by simp)
  have split : (before ++ [x] ++ b :: back).Nodup := by
    rw [← first, cons_append]
    exact ring.nodup
  have rotated : (front ++ b :: (y :: after)).Nodup := by
    have moved : (front ++ b :: back ++ [head]).Nodup := by
      rw [List.nodup_append_comm]
      exact ring.nodup
    rw [append_assoc, cons_append, second] at moved
    exact moved
  obtain ⟨inBefore, inBack, separate⟩ := List.nodup_append.mp split
  obtain ⟨-, inRest, separate'⟩ := List.nodup_append.mp rotated
  have inRest' := (nodup_cons.mp inRest).2
  refine ⟨ring.nodup.sublist (by simp), ?_⟩
  have row : head :: (front ++ back ++ [head]) = before ++ x :: y :: after := by
    rw [append_assoc, ← cons_append, first, second, append_assoc]
    rfl
  rw [row]
  refine joined_unlink ?_ ?_ ?_ ?_ ?_ (nodup_cons.mp inRest').1
  · have joined := ring.joined
    rw [append_assoc, cons_append, second, ← cons_append, first,
      append_assoc] at joined
    exact joined
  · rintro rfl
    exact (nodup_cons.mp inRest).1 mem_cons_self
  · rw [List.nodup_append_comm] at inBefore
    exact (nodup_cons.mp inBefore).1
  · rw [← second, List.dropLast_concat]
    intro member
    exact separate x (by simp) x (mem_cons_of_mem _ member) rfl
  · rw [← first, List.tail_cons]
    intro member
    exact separate' y member y (by simp) rfl

theorem Ring.link (ring : Ring l head nodes) (new : b ∉ head :: nodes) :
    Ring (l.link head b) head (b :: nodes) := by
  obtain ⟨y, after, second⟩ : ∃ y after, nodes ++ [head] = y :: after :=
    List.exists_cons_of_ne_nil (by simp)
  obtain ⟨headNew, headNotIn⟩ := nodup_cons.mp ring.nodup
  have other : head ≠ b := by
    rintro rfl
    exact new mem_cons_self
  have absent : b ∉ y :: after := by
    rw [← second]
    simpa [and_comm] using new
  have once : y ∉ after := by
    have rotated : (nodes ++ [head]).Nodup := by
      rw [List.nodup_append_comm]
      exact ring.nodup
    rw [second] at rotated
    exact (nodup_cons.mp rotated).1
  have joined := ring.joined
  rw [second, isChain_cons_cons] at joined
  obtain ⟨⟨forward, -⟩, rest⟩ := joined
  have apart : y ≠ b := fun same => absent (same ▸ mem_cons_self)
  have pointers : l.link head b =
      (((l.setNext b y).setPrev b head).setPrev y b).setNext head b := by
    simp only [Links.link, Links.setNext, Links.setPrev, forward, update_of_ne other]
  rw [pointers]
  refine ⟨?_, ?_⟩
  · rw [nodup_cons, mem_cons, not_or, nodup_cons]
    rw [mem_cons, not_or] at new
    exact ⟨⟨other, headNew⟩, new.2, headNotIn⟩
  · rw [cons_append, isChain_cons_cons, second, isChain_cons_cons]
    refine ⟨⟨?_, ?_⟩, ⟨?_, ?_⟩, joined_congr rest ?_ ?_⟩
    · exact update_self _ _ _
    · change update (update l.prev b head) y b b = head
      rw [update_of_ne apart.symm, update_self]
    · change update (update l.next b y) head b b = y
      rw [update_of_ne other.symm, update_self]
    · exact update_self _ _ _
    · intro z member
      rw [← second, List.dropLast_concat] at member
      have notHead : z ≠ head := fun same => headNew (same ▸ member)
      have notNew : z ≠ b := fun same => new (mem_cons_of_mem _ (same ▸ member))
      change update (update l.next b y) head b z = l.next z
      rw [update_of_ne notHead, update_of_ne notNew]
    · intro z member
      rw [List.tail_cons] at member
      have notFirst : z ≠ y := fun same => once (same ▸ member)
      have notNew : z ≠ b := fun same => absent (mem_cons_of_mem _ (same ▸ member))
      change update (update l.prev b head) y b z = l.prev z
      rw [update_of_ne notFirst, update_of_ne notNew]

theorem Ring.move (ring : Ring l head (front ++ b :: back)) :
    Ring ((l.unlink b).link head b) head (b :: (front ++ back)) := by
  refine ring.unlink.link ?_
  have nodup := ring.nodup
  have moved : (head :: (front ++ b :: back)).Perm (b :: head :: (front ++ back)) :=
    (List.perm_middle.cons head).trans (.swap b head _)
  exact (nodup_cons.mp (moved.nodup_iff.mp nodup)).1

end

end LinkedRing
