import Mathlib.Data.Fintype.Card
import Mathlib.Data.List.Nodup

/-!
# Null-terminated chains

Nodes of a type hold one pointer each, given by a function `next`. A chain is the list of nodes
met by following the pointers from a head to the null pointer. The representation predicate is
`Segment`, which ends at an arbitrary pointer, so that a chain splits at any of its nodes. The
operations are the walk to the last node and the insertion after it; both follow pointers and
carry fuel, because an arbitrary `next` may be cyclic. On a chain without repetition over a
finite type the number of nodes is enough fuel.
-/

namespace Chain

open Function (update update_of_ne update_self)

variable {α : Type}

/-- Following `next` from `head` meets exactly the listed nodes and then the pointer `tail`. -/
def Segment (next : α → Option α) (head : Option α) : List α → Option α → Prop
  | [], tail => head = tail
  | node :: nodes, tail => head = some node ∧ Segment next (next node) nodes tail

/-- Following `next` from `head` meets exactly the listed nodes and then the null pointer. -/
def Linked (next : α → Option α) (head : Option α) (nodes : List α) : Prop :=
  Segment next head nodes none

/-- Whether a list is a segment is decided by following the pointers. -/
instance Segment.decidable [DecidableEq α] (next : α → Option α) :
    (head : Option α) → (nodes : List α) → (tail : Option α) →
      Decidable (Segment next head nodes tail)
  | head, [], tail => inferInstanceAs (Decidable (head = tail))
  | head, node :: nodes, tail =>
    have := Segment.decidable next (next node) nodes tail
    inferInstanceAs (Decidable (head = some node ∧ Segment next (next node) nodes tail))

instance Linked.decidable [DecidableEq α] (next : α → Option α) (head : Option α)
    (nodes : List α) : Decidable (Linked next head nodes) :=
  Segment.decidable next head nodes none

variable {next next' : α → Option α} {head tail : Option α} {node : α} {nodes more : List α}

@[simp]
theorem segment_nil : Segment next head [] tail ↔ head = tail := Iff.rfl

@[simp]
theorem segment_cons :
    Segment next head (node :: nodes) tail ↔
      head = some node ∧ Segment next (next node) nodes tail := Iff.rfl

theorem segment_append :
    Segment next head (nodes ++ more) tail ↔
      ∃ middle, Segment next head nodes middle ∧ Segment next middle more tail := by
  induction nodes generalizing head with
  | nil => simp
  | cons node nodes ih =>
    simp only [List.cons_append, segment_cons, ih]
    constructor
    · rintro ⟨first, middle, front, back⟩
      exact ⟨middle, ⟨first, front⟩, back⟩
    · rintro ⟨middle, ⟨first, front⟩, back⟩
      exact ⟨first, middle, front, back⟩

theorem Segment.congr (segment : Segment next head nodes tail)
    (same : ∀ node ∈ nodes, next' node = next node) : Segment next' head nodes tail := by
  induction nodes generalizing head with
  | nil => exact segment
  | cons node nodes ih =>
    obtain ⟨first, rest⟩ := segment
    refine ⟨first, ?_⟩
    rw [same node List.mem_cons_self]
    exact ih rest (fun other member => same other (List.mem_cons_of_mem _ member))

section

variable (linked : Linked next head nodes)
include linked

theorem Linked.congr (same : ∀ node ∈ nodes, next' node = next node) : Linked next' head nodes :=
  Segment.congr linked same

theorem Linked.unique (other : Linked next head more) : nodes = more := by
  induction nodes generalizing head more with
  | nil =>
    cases more with
    | nil => rfl
    | cons node more =>
      obtain rfl : head = none := linked
      cases other.1
  | cons node nodes ih =>
    obtain ⟨rfl, rest⟩ := linked
    cases more with
    | nil => cases other
    | cons node' more =>
      obtain ⟨first, rest'⟩ := other
      cases first
      rw [ih rest rest']

theorem Linked.head_none : head = none ↔ nodes = [] := by
  cases nodes with
  | nil => exact iff_of_true linked rfl
  | cons node nodes => simp [linked.1]

end

theorem Linked.head_some (linked : Linked next (some node) nodes) :
    ∃ rest, nodes = node :: rest ∧ Linked next (next node) rest := by
  cases nodes with
  | nil => cases linked
  | cons other rest =>
    obtain ⟨first, tail⟩ := linked
    cases first
    exact ⟨rest, rfl, tail⟩

/-- The last node of the chain that starts at a node, followed pointer by pointer. No result
means that the fuel ran out before the null pointer was met. -/
def walk (next : α → Option α) : Nat → α → Option α
  | 0, _ => none
  | fuel + 1, node =>
    match next node with
    | none => some node
    | some following => walk next fuel following

theorem walk_linked {fuel : Nat} {last : α} (linked : Linked next (some node) (nodes ++ [last]))
    (enough : nodes.length < fuel) : walk next fuel node = some last := by
  induction nodes generalizing node fuel with
  | nil =>
    obtain ⟨here, ended⟩ := linked
    cases here
    obtain ⟨fuel, rfl⟩ : ∃ less, fuel = less + 1 := ⟨fuel - 1, by simp at enough; omega⟩
    simp only [segment_nil] at ended
    simp [walk, ended]
  | cons first nodes ih =>
    obtain ⟨fuel, rfl⟩ : ∃ less, fuel = less + 1 := ⟨fuel - 1, by simp at enough; omega⟩
    obtain ⟨here, rest⟩ := linked
    cases here
    have more : nodes.length < fuel := by simpa using enough
    cases following : next first with
    | none =>
      rw [following] at rest
      have empty := Linked.head_none rest
      simp at empty
    | some other =>
      rw [following] at rest
      simp only [walk, following]
      exact ih rest more

section Update

variable [DecidableEq α]

/-- Insert a node at the end of the chain from `head`: an empty chain becomes the node alone,
otherwise the walk finds the last node and links it to the new one. -/
def pushBack (fuel : Nat) (next : α → Option α) (head : Option α) (node : α) :
    Option ((α → Option α) × Option α) :=
  match head with
  | none => some (Function.update next node none, some node)
  | some current =>
    (walk next fuel current).map fun last =>
      (Function.update (Function.update next node none) last (some node), some current)

theorem pushBack_linked {fuel : Nat} (linked : Linked next head nodes) (distinct : nodes.Nodup)
    (fresh : node ∉ nodes) (enough : nodes.length ≤ fuel) :
    ∃ next' head', pushBack fuel next head node = some (next', head') ∧
      Linked next' head' (nodes ++ [node]) ∧
        ∀ other, other ≠ node → other ∉ nodes → next' other = next other := by
  cases head with
  | none =>
    obtain rfl : nodes = [] := linked.head_none.mp rfl
    refine ⟨_, _, rfl, ?_, ?_⟩
    · simp [Linked]
    · intro other different _
      exact update_of_ne different _ _
  | some current =>
    obtain ⟨front, last, rfl⟩ : ∃ front last, nodes = front ++ [last] := by
      have nonempty : nodes ≠ [] := fun empty => by simpa using linked.head_none.mpr empty
      exact ⟨nodes.dropLast, nodes.getLast nonempty, (List.dropLast_append_getLast nonempty).symm⟩
    have found : walk next fuel current = some last :=
      walk_linked linked (by simp at enough; omega)
    have apart : last ≠ node := fun same => fresh (by simp [same])
    refine ⟨_, _, by simp only [pushBack, found, Option.map_some]; rfl, ?_, ?_⟩
    · -- The old nodes before the last keep their pointers, the last now leads to the new node.
      obtain ⟨middle, before, atLast⟩ := segment_append.mp linked
      obtain ⟨rfl, -⟩ := atLast
      have lastFresh : last ∉ front := by
        intro member
        exact (List.nodup_append.mp distinct).2.2 last member last (by simp) rfl
      rw [List.append_assoc]
      refine segment_append.mpr ⟨some last, before.congr ?_, ?_⟩
      · intro other member
        have notLast : other ≠ last := fun same => lastFresh (same ▸ member)
        have notNode : other ≠ node := fun same => fresh (by simp [← same, member])
        rw [update_of_ne notLast, update_of_ne notNode]
      · simp [Ne.symm apart]
    · intro other different absent
      have notLast : other ≠ last := fun same => absent (by simp [same])
      rw [update_of_ne notLast, update_of_ne different]

theorem Linked.drop_head (linked : Linked next (some node) (node :: nodes))
    (distinct : (node :: nodes).Nodup) :
    Linked (update next node none) (next node) nodes := by
  refine Linked.congr linked.2 (fun other member => ?_)
  have different : other ≠ node := fun same => (List.nodup_cons.mp distinct).1 (same ▸ member)
  exact update_of_ne different _ _

theorem Linked.unlink {previous : α} (linked : Linked next head (nodes ++ previous :: node :: more))
    (distinct : (nodes ++ previous :: node :: more).Nodup) :
    Linked (update (update next previous (next node)) node none) head
      (nodes ++ previous :: more) := by
  have apart := List.nodup_append.mp distinct
  have previousFresh : previous ∉ node :: more := (List.nodup_cons.mp apart.2.1).1
  have nodeFresh : node ∉ more := (List.nodup_cons.mp (List.nodup_cons.mp apart.2.1).2).1
  have unchanged : ∀ other, other ≠ node → other ≠ previous →
      update (update next previous (next node)) node none other = next other := by
    intro other notNode notPrevious
    rw [update_of_ne notNode, update_of_ne notPrevious]
  obtain ⟨middle, before, rfl, -, after⟩ := segment_append.mp linked
  refine segment_append.mpr ⟨some previous, before.congr ?_, rfl, ?_⟩
  · intro other member
    exact unchanged other (fun same => apart.2.2 other member node (by simp) same)
      (fun same => apart.2.2 other member previous (by simp) same)
  · rw [update_of_ne (fun same => previousFresh (by simp [same])),
      update_self]
    refine after.congr (fun other member => ?_)
    exact unchanged other (fun same => nodeFresh (same ▸ member))
      (fun same => previousFresh (by simp [← same, member]))

end Update

end Chain
