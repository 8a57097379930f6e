import Xv6.Library.RedoLog
import Xv6.Param

/-!
# The log on disk

`log.c` over the buffer cache of `bio.c`. A block is the row of its words, since the log reads a
header by words and copies everything else whole. A store is the disk, the contents that the
cache holds, and the single-block writes issued so far; `bwrite` is synchronous, so the disk is
always the result of those writes in order. Booting loses the cache and nothing else.
-/

namespace Xv6

abbrev BlockNo := Word

def blockWords : Nat := bsize / 4

instance : NeZero blockWords := ⟨by decide⟩

abbrev Block := Fin blockWords → Word

structure Store where
  disk : BlockNo → Block
  cache : BlockNo → Option Block
  writes : List (BlockNo × Block)

namespace Store

def bread (s : Store) (b : BlockNo) : Block := (s.cache b).getD (s.disk b)

def bwrite (s : Store) (b : BlockNo) (data : Block) : Store where
  disk := Function.update s.disk b data
  cache := Function.update s.cache b (some data)
  writes := s.writes ++ [(b, data)]

def boot (disk : BlockNo → Block) : Store where
  disk := disk
  cache := fun _ => none
  writes := []

end Store

def logBlock (start : BlockNo) (tail : Nat) : BlockNo := start + BitVec.ofNat 32 tail + 1

def installTrans (start : BlockNo) : Nat → List BlockNo → Store → Store
  | _, [], s => s
  | tail, dst :: rest, s =>
    installTrans start (tail + 1) rest (s.bwrite dst (s.bread (logBlock start tail)))

def writeLog (start : BlockNo) : Nat → List BlockNo → Store → Store
  | _, [], s => s
  | tail, src :: rest, s =>
    writeLog start (tail + 1) rest (s.bwrite (logBlock start tail) (s.bread src))

/-- Fill a header buffer: word zero is `n` and the entries follow; other words stay. -/
def fillHead (buf : Block) (lh : List BlockNo) : Block := fun i =>
  if i = 0 then BitVec.ofNat 32 lh.length else (lh[i.val - 1]?).getD (buf i)

def writeHead (start : BlockNo) (lh : List BlockNo) (s : Store) : Store :=
  s.bwrite start (fillHead (s.bread start) lh)

/-- `read_head`: the entries of a header buffer. A count beyond `LOGSIZE` overruns the array of
the in-memory header. -/
def readHead (buf : Block) : Except Fault (List BlockNo) :=
  let n := (buf 0).toInt
  if (logSize : Int) < n then .error .outOfBounds
  else .ok ((List.range n.toNat).map fun i => buf (Fin.ofNat blockWords (i + 1)))

def recoverFromLog (start : BlockNo) (s : Store) : Except Fault Store := do
  let lh ← readHead (s.bread start)
  return writeHead start [] (installTrans start 0 lh s)

def commit (start : BlockNo) (lh : List BlockNo) (s : Store) : Store :=
  if 0 < lh.length then
    writeHead start [] (installTrans start 0 lh (writeHead start lh (writeLog start 0 lh s)))
  else s

namespace Store

def bwrites (s : Store) (writes : List (BlockNo × Block)) : Store :=
  writes.foldl (fun s write => s.bwrite write.1 write.2) s

@[simp]
theorem bwrites_disk (s : Store) (writes : List (BlockNo × Block)) :
    (s.bwrites writes).disk = RedoLog.apply s.disk writes := by
  induction writes generalizing s with
  | nil => rfl
  | cons write rest ih => exact ih (s.bwrite write.1 write.2)

@[simp]
theorem bwrites_writes (s : Store) (writes : List (BlockNo × Block)) :
    (s.bwrites writes).writes = s.writes ++ writes := by
  induction writes generalizing s with
  | nil => simp [bwrites]
  | cons write rest ih =>
    have later := ih (s.bwrite write.1 write.2)
    simpa [bwrites, bwrite] using later

theorem bread_bwrite (s : Store) (b : BlockNo) (data : Block) :
    (s.bwrite b data).bread = Function.update s.bread b data := by
  funext other
  by_cases same : other = b
  · simp [same, bread, bwrite]
  · simp [bread, bwrite, Function.update_of_ne same]

@[simp]
theorem bwrites_bread (s : Store) (writes : List (BlockNo × Block)) :
    (s.bwrites writes).bread = RedoLog.apply s.bread writes := by
  induction writes generalizing s with
  | nil => rfl
  | cons write rest ih =>
    have later := ih (s.bwrite write.1 write.2)
    rwa [bread_bwrite] at later

theorem bwrites_append (s : Store) (first second : List (BlockNo × Block)) :
    s.bwrites (first ++ second) = (s.bwrites first).bwrites second := by
  simp [bwrites, List.foldl_append]

def copy (s : Store) (pairs : List (BlockNo × BlockNo)) : Store :=
  pairs.foldl (fun s pair => s.bwrite pair.1 (s.bread pair.2)) s

theorem copy_eq {pairs : List (BlockNo × BlockNo)} {s : Store}
    (disjoint : ∀ written ∈ pairs, ∀ source ∈ pairs, source.2 ≠ written.1) :
    s.copy pairs = s.bwrites (pairs.map fun pair => (pair.1, s.bread pair.2)) := by
  induction pairs generalizing s with
  | nil => rfl
  | cons pair rest ih =>
    have later := ih (s := s.bwrite pair.1 (s.bread pair.2)) fun written inRest source member =>
      disjoint written (List.mem_cons_of_mem _ inRest) source (List.mem_cons_of_mem _ member)
    have same : ∀ source ∈ rest,
        (s.bwrite pair.1 (s.bread pair.2)).bread source.2 = s.bread source.2 := by
      intro source member
      have other := disjoint pair List.mem_cons_self source (List.mem_cons_of_mem _ member)
      rw [bread_bwrite, Function.update_of_ne other]
    rw [List.map_congr_left fun source member => by rw [same source member]] at later
    exact later

theorem copy_blocks (s : Store) (pairs : List (BlockNo × BlockNo)) :
    (s.copy pairs).writes.map Prod.fst = s.writes.map Prod.fst ++ pairs.map Prod.fst := by
  induction pairs generalizing s with
  | nil => exact (List.append_nil _).symm
  | cons pair rest ih =>
    refine (ih (s.bwrite pair.1 (s.bread pair.2))).trans ?_
    rw [bwrite, List.map_append, List.append_assoc]
    rfl

@[simp]
theorem bread_boot (disk : BlockNo → Block) : (boot disk).bread = disk := rfl

end Store

theorem writeLog_copy (start : BlockNo) (tail : Nat) (lh : List BlockNo) (s : Store) :
    writeLog start tail lh s =
      s.copy (lh.mapIdx fun i src => (logBlock start (tail + i), src)) := by
  induction lh generalizing tail s with
  | nil => rfl
  | cons src rest ih =>
    rw [writeLog, ih, List.mapIdx_cons]
    simp only [Nat.add_right_comm tail 1, ← Nat.add_assoc]
    rfl

theorem installTrans_copy (start : BlockNo) (tail : Nat) (lh : List BlockNo) (s : Store) :
    installTrans start tail lh s =
      s.copy (lh.mapIdx fun i dst => (dst, logBlock start (tail + i))) := by
  induction lh generalizing tail s with
  | nil => rfl
  | cons dst rest ih =>
    rw [installTrans, ih, List.mapIdx_cons]
    simp only [Nat.add_right_comm tail 1, ← Nat.add_assoc]
    rfl

/-- The blocks that a commit of the header writes: its entries in the log, the header, the blocks
that it lists and the header again. -/
def commitBlocks (start : BlockNo) (lh : List BlockNo) : List BlockNo :=
  if 0 < lh.length then
    (List.range lh.length).map (logBlock start) ++ [start] ++ lh ++ [start]
  else []

theorem commit_blocks (start : BlockNo) (lh : List BlockNo) (s : Store) :
    (commit start lh s).writes.map Prod.fst = s.writes.map Prod.fst ++ commitBlocks start lh := by
  rw [commit, commitBlocks]
  split
  · have head : ∀ (entries : List BlockNo) (s : Store),
        (writeHead start entries s).writes.map Prod.fst = s.writes.map Prod.fst ++ [start] := by
      intro entries s
      rw [writeHead, Store.bwrite, List.map_append]
      rfl
    have logged : (lh.mapIdx fun i src => (logBlock start (0 + i), src)).map Prod.fst =
        (List.range lh.length).map (logBlock start) := by
      exact List.ext_getElem (by simp) fun i _ _ => by simp
    have installed : (lh.mapIdx fun i dst => (dst, logBlock start (0 + i))).map Prod.fst = lh := by
      exact List.ext_getElem (by simp) fun i _ _ => by simp
    rw [head, installTrans_copy, Store.copy_blocks, head, writeLog_copy, Store.copy_blocks, logged,
      installed]
    simp only [List.append_assoc]
  · rw [List.append_nil]

variable {lh : List BlockNo}

section

variable (buf : Block) (bounded : lh.length ≤ logSize)
include buf bounded

theorem fillHead_count : (fillHead buf lh 0).toInt = lh.length := by
  have small : lh.length ≤ 30 := bounded
  simp only [fillHead, if_true, BitVec.toInt_eq_toNat_cond, BitVec.toNat_ofNat]
  omega

theorem fillHead_entry {i : Nat} (bound : i < lh.length) :
    fillHead buf lh (Fin.ofNat blockWords (i + 1)) = lh[i] := by
  have small : i < 30 := lt_of_lt_of_le bound bounded
  have value : (Fin.ofNat blockWords (i + 1)).val = i + 1 :=
    Nat.mod_eq_of_lt (by show i + 1 < 128; omega)
  have nonzero : Fin.ofNat blockWords (i + 1) ≠ 0 := by
    intro zero
    rw [zero] at value
    simp at value
  simp only [fillHead, nonzero, if_false, value, Nat.add_sub_cancel,
    List.getElem?_eq_getElem bound, Option.getD_some]

theorem readHead_fillHead : readHead (fillHead buf lh) = .ok lh := by
  have inside : ¬ (logSize : Int) < lh.length := by omega
  simp only [readHead, fillHead_count buf bounded, inside, if_false, Int.toNat_natCast]
  congr 1
  apply List.ext_getElem (by simp)
  intro i _ bound
  simpa using fillHead_entry buf bounded bound

end

end Xv6
