import Xv6.Library.Chain

/-!
# Circular lists

Every node holds a pointer to a node. A path is the list of nodes met by following the pointers
from one node up to another that is not counted; a circle is a path from a node to itself. From
any node of a circle the pointers lead to every other, and a whole turn meets each of them once.
-/

namespace Circular

open Chain (Segment segment_append)

variable {α : Type}

/-- Following `next` from the start meets exactly the listed nodes and then the end. -/
def Path (next : α → α) (start : α) (nodes : List α) (stop : α) : Prop :=
  Segment (fun node => some (next node)) (some start) nodes (some stop)

variable {next next' : α → α} {start middle stop node : α} {nodes more : List α}

@[simp]
theorem path_nil : Path next start [] stop ↔ start = stop := by simp [Path]

@[simp]
theorem path_cons :
    Path next start (node :: nodes) stop ↔ start = node ∧ Path next (next node) nodes stop := by
  simp [Path]

theorem path_append :
    Path next start (nodes ++ more) stop ↔
      ∃ middle, Path next start nodes middle ∧ Path next middle more stop := by
  induction nodes generalizing start with
  | nil => simp
  | cons node nodes ih => simp [ih, and_assoc]

theorem path_split :
    Path next start (nodes ++ node :: more) stop ↔
      Path next start nodes node ∧ Path next (next node) more stop := by
  rw [path_append]
  constructor
  · rintro ⟨middle, front, back⟩
    obtain ⟨rfl, back⟩ := path_cons.mp back
    exact ⟨front, back⟩
  · rintro ⟨front, back⟩
    exact ⟨node, front, path_cons.mpr ⟨rfl, back⟩⟩

theorem Path.congr (path : Path next start nodes stop)
    (same : ∀ node ∈ nodes, next' node = next node) : Path next' start nodes stop :=
  Segment.congr path fun node member => congrArg some (same node member)

theorem Path.map (path : Path next start (node :: nodes) stop) :
    (node :: nodes).map next = nodes ++ [stop] := by
  induction nodes generalizing start node with
  | nil => simpa using (path_cons.mp path).2
  | cons second nodes ih =>
    have rest := (path_cons.mp path).2
    rw [List.map_cons, ih rest, (path_cons.mp rest).1, List.cons_append]

theorem Path.rotate (circle : Path next start (nodes ++ node :: more) start) :
    Path next node (node :: more ++ nodes) node := by
  obtain ⟨front, back⟩ := path_split.mp circle
  exact path_append.mpr ⟨start, path_cons.mpr ⟨rfl, back⟩, front⟩

theorem Path.leads [DecidableEq α] (circle : Path next start nodes start) (source : node ∈ nodes)
    (target : stop ∈ nodes) :
    ∃ way, Path next node way stop ∧ stop ∉ way ∧ way ⊆ nodes ∧ way.length < nodes.length := by
  obtain ⟨front, back, rfl⟩ := List.append_of_mem source
  have turned := circle.rotate
  have inTurn : stop ∈ node :: back ++ front := by
    simp only [List.mem_append, List.mem_cons] at target ⊢
    tauto
  -- the first time that the node is met on the turn
  obtain ⟨way, rest, split, first⟩ : ∃ way rest, node :: back ++ front = way ++ stop :: rest ∧
      stop ∉ way := by
    obtain ⟨way, rest, absent, split, -⟩ := List.exists_erase_eq inTurn
    exact ⟨way, rest, split, absent⟩
  refine ⟨way, (path_split.mp (split ▸ turned)).1, first, fun other member => ?_, ?_⟩
  · have later : other ∈ node :: back ++ front := by
      rw [split]
      exact List.mem_append_left _ member
    simp only [List.mem_append, List.mem_cons] at later ⊢
    tauto
  · have lengths := congrArg List.length split
    simp only [List.length_append, List.length_cons] at lengths ⊢
    omega

theorem Path.turn (circle : Path next start nodes start) (member : node ∈ nodes) :
    ∃ way, Path next (next node) way node ∧ (way ++ [node]).Perm nodes := by
  obtain ⟨front, back, rfl⟩ := List.append_of_mem member
  have turned := (path_cons.mp circle.rotate).2
  refine ⟨back ++ front, turned, ?_⟩
  calc
    (back ++ front ++ [node]).Perm (node :: (back ++ front)) := List.perm_append_singleton _ _
    List.Perm _ (node :: (front ++ back)) := List.perm_append_comm.cons _
    List.Perm _ (front ++ node :: back) := List.perm_middle.symm

end Circular
