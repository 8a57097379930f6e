import Xv6.Fs.Format
import Xv6.Proc.ReadyLists
import Xv6.Sys.Args

/-!
# The table of processes for user space

`getProcInfo` writes a row of `struct uproc` for each process in use, in the order of the table
and at most `max` of them. The names of the states end with that of `RUNNING`, but a `ZOMBIE` is
reported too: its name is looked up behind the end of the table. The pointer is checked for one
row, whatever `max` is.
-/

namespace Xv6

open Bytes (Byte toBytes)
open ByteSpace (Memory write write_comm write_append)

structure Uproc where
  pid : Word
  gid : Word
  uid : Word
  ppid : Word
  state : List Byte
  size : Word
  priority : Word
  name : List Byte

namespace Uproc

def bytes : Nat := 56

def toBytes (row : Uproc) : List Byte :=
  Bytes.toBytes row.pid ++ Bytes.toBytes row.gid ++ Bytes.toBytes row.uid ++
    Bytes.toBytes row.ppid ++ row.state ++ Bytes.toBytes row.size ++ Bytes.toBytes row.priority ++
    row.name

/-- The assignments to the fields of the row at an address, in the order of `getProcInfo`. -/
def store (row : Uproc) (start : Word) (mem : Memory) : Memory :=
  let mem := write mem (start + 0#32) (Bytes.toBytes row.pid)
  let mem := write mem (start + 8#32) (Bytes.toBytes row.uid)
  let mem := write mem (start + 4#32) (Bytes.toBytes row.gid)
  let mem := write mem (start + 36#32) (Bytes.toBytes row.priority)
  let mem := write mem (start + 12#32) (Bytes.toBytes row.ppid)
  let mem := write mem (start + 16#32) row.state
  let mem := write mem (start + 32#32) (Bytes.toBytes row.size)
  write mem (start + 40#32) row.name

variable {row : Uproc} {start : Word} {mem : Memory}

structure Sized (row : Uproc) : Prop where
  state : row.state.length = 16
  name : row.name.length = 16

theorem Sized.length (sized : row.Sized) : row.toBytes.length = bytes := by
  simp only [toBytes, List.length_append, sized.state, sized.name]
  rfl

theorem Sized.store_eq (sized : row.Sized) : row.store start mem = write mem start row.toBytes := by
  have state := sized.state
  have name := sized.name
  have four : ∀ w : Word, (Bytes.toBytes w).length = 4 := fun _ => rfl
  have first : start + 0#32 = start := BitVec.add_zero start
  simp only [store, first]
  -- the fields in the order of their places, then from the front on one write
  rw [write_comm 4 8, write_comm 12 36, write_comm 16 36,
    write_comm 32 36, write_append, write_append,
    write_append, write_append, write_append,
    write_append, write_append, toBytes]
  all_goals simp [four, state, name]

end Uproc

open Uproc (bytes)

namespace Ptable

def text (characters : List Nat) : List Byte := characters.map (BitVec.ofNat 8)

/-- `states` of `getProcInfo`: the names by the number of the state, null where none is given. -/
def states : List (Option (List Byte)) :=
  [none, none, some (text [83, 76, 69, 69, 80, 73, 78, 71]),
    some (text [82, 85, 78, 78, 65, 66, 76, 69]), some (text [82, 85, 78, 78, 73, 78, 71, 32])]

def stateNumber : Procstate → Nat
  | .unused => 0
  | .embryo => 1
  | .sleeping => 2
  | .runnable => 3
  | .running => 4
  | .zombie => 5

def stateName (s : Procstate) : Except Fault (List Byte) :=
  match states[stateNumber s]? with
  | none => .error .outOfBounds
  | some none => .error .nullDeref
  | some (some name) => .ok name

def InUse (s : Procstate) : Prop :=
  s = .zombie ∨ s = .running ∨ s = .runnable ∨ s = .sleeping

instance (s : Procstate) : Decidable (InUse s) := inferInstanceAs (Decidable (_ ∨ _))

def nameText (name : Name) : List Byte :=
  ((List.ofFn name).takeWhile (· ≠ 0)).map UInt8.toBitVec

def uproc (t : Ptable) (p : Slot) (state : List Byte) : Uproc where
  pid := t.pid p
  gid := t.gid p
  uid := t.uid p
  ppid := match t.parent p with
    | some q => t.pid q
    | none => t.pid p
  state := strncpy 16 state
  size := t.sz p
  priority := BitVec.ofInt 32 (t.priority p)
  name := strncpy 16 (nameText (t.name p))

def getProcInfoLoop (t : Ptable) (max : Int) (table : Word) :
    List Slot → Nat → Memory → Except Fault (Memory × Int)
  | [], i, mem => .ok (mem, i)
  | p :: rest, i, mem =>
    if (i : Int) < max then
      if InUse (t.state p) then do
        let state ← stateName (t.state p)
        let row := table + BitVec.ofNat 32 (Uproc.bytes * i)
        t.getProcInfoLoop max table rest (i + 1) ((t.uproc p state).store row mem)
      else t.getProcInfoLoop max table rest i mem
    else .ok (mem, i)

def getProcInfo (t : Ptable) (max : Int) (table : Word) (mem : Memory) :
    Except Fault (Memory × Int) :=
  t.getProcInfoLoop max table slots 0 mem

def caller (t : Ptable) (proc : Slot) (esp : Word) (mem : Memory) : Caller where
  sz := t.sz proc
  esp
  mem

def sysGetprocs (t : Ptable) (proc : Slot) (esp : Word) (mem : Memory) :
    Except Fault (Memory × Int) :=
  match (t.caller proc esp mem).argint 0,
      (t.caller proc esp mem).argptr 1 (BitVec.ofNat 32 Uproc.bytes) with
  | some max, some table => t.getProcInfo max.toInt table mem
  | _, _ => .ok (mem, -1)

def stateText : Procstate → List Byte
  | .sleeping => text [83, 76, 69, 69, 80, 73, 78, 71]
  | .runnable => text [82, 85, 78, 78, 65, 66, 76, 69]
  | .running => text [82, 85, 78, 78, 73, 78, 71, 32]
  | _ => []

def inUse (t : Ptable) (found : List Slot) : List Slot := found.filter fun p => InUse (t.state p)

/-- The slots that are reported: the first `max` of those in use, none for a negative `max`. -/
def reported (t : Ptable) (max : Int) : List Slot := (t.inUse slots).take max.toNat

def rows (t : Ptable) (found : List Slot) : List Byte :=
  found.flatMap fun p => (t.uproc p (stateText (t.state p))).toBytes

variable {t : Ptable} {max : Int} {table : Word} {mem : Memory} {p : Slot}

theorem uproc_sized {state : List Byte} : (t.uproc p state).Sized :=
  ⟨length_strncpy 16 _, length_strncpy 16 _⟩

variable {found : List Slot}

theorem length_rows : (t.rows found).length = bytes * found.length := by
  induction found with
  | nil => rfl
  | cons p rest ih =>
    show (_ ++ t.rows rest).length = _
    rw [List.length_append, uproc_sized.length, ih, List.length_cons, Nat.mul_succ, Nat.add_comm]

theorem stateName_ok {s : Procstate} (used : InUse s) (live : s ≠ .zombie) :
    stateName s = .ok (stateText s) := by
  cases s <;> first | rfl | exact absurd rfl live | simp [InUse] at used

theorem store_row {done : List Slot} (small : bytes * (done.length + 1) ≤ 2 ^ 32) :
    (t.uproc p (stateText (t.state p))).store
        (table + BitVec.ofNat 32 (bytes * done.length)) (write mem table (t.rows done)) =
      write mem table (t.rows (done ++ [p])) := by
  rw [uproc_sized.store_eq, write_append length_rows
    (by rw [uproc_sized.length, ← Nat.mul_succ]; exact small), rows, rows, List.flatMap_append,
    List.flatMap_singleton]

theorem getProcInfoLoop_spec {rest done left : List Slot}
    (small : bytes * (done.length + rest.length) ≤ 2 ^ 32)
    (reports : left = (t.inUse rest).take (max.toNat - done.length)) :
    t.getProcInfoLoop max table rest done.length (write mem table (t.rows done)) =
      if ∃ p ∈ left, t.state p = .zombie then .error .outOfBounds
      else .ok (write mem table (t.rows (done ++ left)), ((done ++ left).length : Int)) := by
  induction rest generalizing done left with
  | nil => simp [reports, inUse, getProcInfoLoop]
  | cons p rest ih =>
    have fits : bytes * (done.length + 1 + rest.length) ≤ 2 ^ 32 := by
      rw [List.length_cons] at small
      rwa [Nat.add_assoc, Nat.add_comm 1]
    have still : bytes * (done.length + 1) ≤ 2 ^ 32 :=
      Nat.le_trans (Nat.mul_le_mul_left _ (Nat.le_add_right _ _)) fits
    rw [getProcInfoLoop]
    by_cases more : (done.length : Int) < max
    · by_cases used : InUse (t.state p)
      · have room : max.toNat - done.length = max.toNat - (done.length + 1) + 1 := by omega
        rw [inUse, List.filter_cons_of_pos (by simpa using used), room,
          List.take_succ_cons] at reports
        rw [if_pos more, if_pos used, reports]
        by_cases zombie : t.state p = .zombie
        · rw [if_pos ⟨p, List.mem_cons_self, zombie⟩, zombie]
          rfl
        · rw [stateName_ok used zombie]
          show t.getProcInfoLoop max table rest (done.length + 1) _ = _
          have next := @ih (done ++ [p]) _ (by simpa using fits) rfl
          rw [List.length_append, List.length_singleton] at next
          rw [store_row still, next, inUse]
          simp [zombie]
      · rw [inUse, List.filter_cons_of_neg (by simpa using used)] at reports
        rw [if_pos more, if_neg used]
        refine ih (Nat.le_trans (Nat.mul_le_mul_left _ ?_) fits) reports
        omega
    · have full : max.toNat - done.length = 0 := by omega
      rw [full, List.take_zero] at reports
      rw [if_neg more, reports]
      simp

theorem getProcInfo_spec : t.getProcInfo max table mem =
    if ∃ p ∈ t.reported max, t.state p = .zombie then .error .outOfBounds
    else .ok (write mem table (t.rows (t.reported max)), ((t.reported max).length : Int)) := by
  have small : bytes * (([] : List Slot).length + slots.length) ≤ 2 ^ 32 := by
    rw [slots, List.length_finRange]
    decide
  exact getProcInfoLoop_spec small rfl

/-- The rows of the slots are in memory from an address on, and no other byte has changed. -/
structure Reports (t : Ptable) (table : Word) (found : List Slot) (mem mem' : Memory) : Prop where
  row : ∀ i (inside : i < found.length) k, k < Uproc.bytes →
    mem' (table + BitVec.ofNat 32 (Uproc.bytes * i + k)) =
      (t.uproc found[i] (stateText (t.state found[i]))).toBytes.getD k 0
  others : ∀ x, Uproc.bytes * found.length ≤ (x - table).toNat → mem' x = mem x

theorem rows_getD {i k : Nat} (inside : i < found.length) (bound : k < bytes) :
    (t.rows found).getD (bytes * i + k) 0 =
      (t.uproc found[i] (stateText (t.state found[i]))).toBytes.getD k 0 := by
  induction found generalizing i with
  | nil => exact absurd inside (Nat.not_lt_zero i)
  | cons p rest ih =>
    have length : (t.uproc p (stateText (t.state p))).toBytes.length = bytes :=
      uproc_sized.length
    show ((t.uproc p (stateText (t.state p))).toBytes ++ t.rows rest).getD _ _ = _
    cases i with
    | zero =>
      rw [List.getD_append _ _ _ _ (by omega)]
      simp
    | succ i =>
      rw [List.getD_append_right _ _ _ _ (by rw [length, Nat.mul_succ]; omega), length,
        show bytes * (i + 1) + k - bytes = bytes * i + k by
          rw [Nat.mul_succ]; omega,
        ih (Nat.lt_of_succ_lt_succ inside)]
      rfl

theorem reports_write (small : bytes * found.length ≤ 2 ^ 32) :
    t.Reports table found mem (write mem table (t.rows found)) where
  row i inside k bound := by
    have place : bytes * i + k < bytes * found.length :=
      calc
        bytes * i + k < bytes * (i + 1) := by rw [Nat.mul_succ]; omega
        _ ≤ bytes * found.length := Nat.mul_le_mul_left _ inside
    have offset : (table + BitVec.ofNat 32 (bytes * i + k) - table).toNat =
        bytes * i + k := by
      rw [BitVec.add_comm, BitVec.add_sub_cancel, BitVec.toNat_ofNat, Nat.mod_eq_of_lt (by omega)]
    rw [ByteSpace.write_inside (by rw [length_rows, offset]; exact place), offset,
      rows_getD inside bound]
  others x outside := ByteSpace.write_outside (by rw [length_rows]; exact outside)

theorem length_reported_le : (t.reported max).length ≤ nproc :=
  calc
    (t.reported max).length ≤ (t.inUse slots).length := List.length_take_le' _ _
    _ ≤ slots.length := List.length_filter_le _ _
    _ = nproc := List.length_finRange

theorem range_inside_iff {sz : Word} {length : Nat} (start : table < sz) :
    (∀ x, (x - table).toNat < length → x < sz) ↔ table.toNat + length ≤ sz.toNat := by
  rw [BitVec.lt_def] at start
  constructor
  · intro inside
    by_contra beyond
    have last := inside sz (by rw [BitVec.toNat_sub]; omega)
    exact absurd last (BitVec.lt_irrefl sz)
  · intro fits x near
    rw [BitVec.toNat_sub] at near
    rw [BitVec.lt_def]
    omega

/-- `sys_getprocs` with arguments it accepts, on every process table. It completes exactly when no
`ZOMBIE` is among the slots that it reports; it then returns their number and has written their
rows, and no other byte. The bytes of the rows are inside the memory of the process exactly when
the end of the last is. -/
theorem sysGetprocs_reports {proc : Slot} {esp bound : Word}
    (first : (t.caller proc esp mem).argint 0 = some bound)
    (second : (t.caller proc esp mem).argptr 1 (BitVec.ofNat 32 Uproc.bytes) = some table) :
    ((t.reported bound.toInt).length : Int) =
      min (Max.max bound.toInt 0) (t.inUse slots).length ∧
    ((∀ p ∈ t.reported bound.toInt, t.state p ≠ .zombie) →
      ∃ mem', t.sysGetprocs proc esp mem = .ok (mem', ((t.reported bound.toInt).length : Int)) ∧
        t.Reports table (t.reported bound.toInt) mem mem') ∧
    ((∃ p ∈ t.reported bound.toInt, t.state p = .zombie) →
      t.sysGetprocs proc esp mem = .error .outOfBounds) ∧
    ((∀ x, (x - table).toNat < Uproc.bytes * (t.reported bound.toInt).length → x < t.sz proc) ↔
      table.toNat + Uproc.bytes * (t.reported bound.toInt).length ≤ (t.sz proc).toNat) := by
  obtain ⟨-, start, -⟩ := Caller.argptr_some second
  have call : t.sysGetprocs proc esp mem = t.getProcInfo bound.toInt table mem := by
    rw [sysGetprocs, first, second]
  have small : Uproc.bytes * (t.reported bound.toInt).length ≤ 2 ^ 32 :=
    Nat.le_trans (Nat.mul_le_mul_left _ length_reported_le) (by decide)
  refine ⟨?_, fun live => ?_, fun zombie => ?_, range_inside_iff start⟩
  · rw [reported, List.length_take]
    omega
  · rw [call, getProcInfo_spec, if_neg (by simpa using live)]
    exact ⟨_, rfl, reports_write small⟩
  · rw [call, getProcInfo_spec, if_pos zombie]

end Ptable

namespace Machine

def getprocsStack : Memory := write (fun _ => 0) 4 (toBytes 64 ++ toBytes 100)

theorem getprocsStack_arguments {t : Ptable} {proc : Slot} (page : t.sz proc = 4096) :
    (t.caller proc 0 getprocsStack).argint 0 = some 64 ∧
      (t.caller proc 0 getprocsStack).argptr 1 (BitVec.ofNat 32 bytes) = some 100 := by
  have caller : t.caller proc 0 getprocsStack = ⟨4096, 0, getprocsStack⟩ := by
    rw [Ptable.caller, page]
  rw [caller]
  decide +kernel

/-- The first process and its child are reported. -/
theorem sysGetprocs_reports_child : ∃ m : Machine Unit,
    Transition.run step booted (startInit () ++ forks ()) = .ok m ∧
      m.table.reported 64 = [62, 63] ∧
      ∃ mem', m.table.sysGetprocs 63 0 getprocsStack = .ok (mem', 2) ∧
        m.table.Reports 100 [62, 63] getprocsStack mem' := by
  have checked : Transition.ends (fun m => decide (m.table.sz 63 = 4096 ∧
      m.table.reported 64 = [62, 63] ∧ m.table.state 62 ≠ .zombie ∧ m.table.state 63 ≠ .zombie))
      (Transition.run step booted (startInit () ++ forks ())) = true := by
    decide +kernel
  obtain ⟨m, reached, facts⟩ := Transition.exists_of_ends checked
  obtain ⟨page, found, child, parent⟩ := of_decide_eq_true facts
  obtain ⟨first, second⟩ := getprocsStack_arguments page
  have reports := (Ptable.sysGetprocs_reports first second).2.1
  rw [show (64 : Word).toInt = 64 from rfl, found] at reports
  exact ⟨m, reached, found, reports (by simp [child, parent])⟩

def childExits : List (Action Unit) :=
  startInit () ++ forks () ++ .call () .yield :: List.replicate 6 (.advance ()) ++
    .call () .exit :: List.replicate 6 (.advance ())

/-- With a child that has exited, the first process looks up a name behind the end of the table. -/
theorem sysGetprocs_zombie : ∃ m : Machine Unit,
    Transition.run step booted childExits = .ok m ∧ m.table.state 63 = .running ∧
      m.table.state 62 = .zombie ∧
      m.table.sysGetprocs 63 0 getprocsStack = .error .outOfBounds := by
  have checked : Transition.ends (fun m => decide (m.table.sz 63 = 4096 ∧
      m.table.state 63 = .running ∧ m.table.state 62 = .zombie ∧ 62 ∈ m.table.reported 64))
      (Transition.run step booted childExits) = true := by
    decide +kernel
  obtain ⟨m, reached, facts⟩ := Transition.exists_of_ends checked
  obtain ⟨page, running, zombie, found⟩ := of_decide_eq_true facts
  obtain ⟨first, second⟩ := getprocsStack_arguments page
  refine ⟨m, reached, running, zombie, ?_⟩
  rw [Ptable.sysGetprocs, first, second]
  show m.table.getProcInfo 64 100 getprocsStack = _
  rw [Ptable.getProcInfo_spec, if_pos ⟨62, found, zombie⟩]

end Machine

end Xv6
