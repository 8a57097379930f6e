import Mathlib.Data.List.Basic
import Mathlib.Data.List.Nodup
import Mathlib.Data.List.TakeDrop

/-!
# Redo logs

A disk maps addresses to contents and changes by single writes. A redo log keeps a header and a
row of slots on it: a transaction is first written to the slots, then the header is made to list
its home addresses, then the homes are written, then the header is cleared. Recovery copies the
slots to the homes that the header lists and clears it. Each kind of write is shown to keep a
disk before the commit, committed, or after it; a crash at any write of the protocol, or of any
number of recoveries, therefore leaves the whole transaction or none of it.
-/

namespace RedoLog

open Function (update update_of_ne update_self)

variable {κ ν : Type} [DecidableEq κ]

def apply (disk : κ → ν) (writes : List (κ × ν)) : κ → ν :=
  writes.foldl (fun disk write => Function.update disk write.1 write.2) disk

@[simp]
theorem apply_nil (disk : κ → ν) : apply disk [] = disk := rfl

@[simp]
theorem apply_cons (disk : κ → ν) (write : κ × ν) (writes : List (κ × ν)) :
    apply disk (write :: writes) = apply (update disk write.1 write.2) writes := rfl

theorem apply_append (disk : κ → ν) (first second : List (κ × ν)) :
    apply disk (first ++ second) = apply (apply disk first) second := by
  simp [apply, List.foldl_append]

variable {writes : List (κ × ν)}

theorem apply_invariant (kept : (κ → ν) → Prop)
    (step : ∀ write ∈ writes, ∀ disk, kept disk → kept (update disk write.1 write.2))
    {disk : κ → ν} (start : kept disk) : kept (apply disk writes) := by
  induction writes generalizing disk with
  | nil => exact start
  | cons write rest ih =>
    have first := step write List.mem_cons_self disk start
    exact ih (fun other member => step other (List.mem_cons_of_mem _ member)) first

theorem apply_absent {address : κ} (absent : ∀ write ∈ writes, write.1 ≠ address) (disk : κ → ν) :
    apply disk writes address = disk address := by
  refine apply_invariant (fun d => d address = disk address) (fun write member d same => ?_)
    rfl
  rw [update_of_ne (Ne.symm (absent write member)), same]

theorem apply_mem (distinct : (writes.map Prod.fst).Nodup) {write : κ × ν} (member : write ∈ writes)
    (disk : κ → ν) : apply disk writes write.1 = write.2 := by
  induction writes generalizing disk with
  | nil => cases member
  | cons first rest ih =>
    obtain ⟨fresh, distinct⟩ := List.nodup_cons.mp distinct
    rcases List.mem_cons.mp member with rfl | later
    · rw [apply_cons, apply_absent, update_self]
      intro other inRest same
      exact fresh (List.mem_map.mpr ⟨other, inRest, same⟩)
    · exact ih distinct later _

structure Layout (κ ν : Type) where
  header : κ
  slot : Nat → κ
  listed : ν → Option (List κ)

/-- A transaction: distinct home addresses outside the log, and their new contents. -/
structure Transaction (layout : Layout κ ν) where
  homes : List κ
  new : κ → ν
  distinct : homes.Nodup
  slots : ∀ i < homes.length, ∀ j < homes.length, layout.slot i = layout.slot j → i = j
  header : ∀ i < homes.length, layout.slot i ≠ layout.header
  headerHome : layout.header ∉ homes
  slotHome : ∀ i < homes.length, layout.slot i ∉ homes

namespace Transaction

variable {layout : Layout κ ν} (t : Transaction layout) (old : κ → ν)

def Outside (address : κ) : Prop :=
  address ≠ layout.header ∧ ∀ i < t.homes.length, address ≠ layout.slot i

/-- Before the commit: the header lists nothing and everything outside the log is old. -/
structure Before (disk : κ → ν) : Prop where
  header : layout.listed (disk layout.header) = some []
  outside : ∀ address, t.Outside address → disk address = old address

structure Committed (disk : κ → ν) : Prop where
  header : layout.listed (disk layout.header) = some t.homes
  logged : ∀ i (bound : i < t.homes.length), disk (layout.slot i) = t.new t.homes[i]
  outside : ∀ address, t.Outside address → address ∉ t.homes → disk address = old address

/-- After the commit: the header lists nothing and the homes hold their new contents. -/
structure After (disk : κ → ν) : Prop where
  header : layout.listed (disk layout.header) = some []
  installed : ∀ address ∈ t.homes, disk address = t.new address
  outside : ∀ address, t.Outside address → address ∉ t.homes → disk address = old address

variable {t old} {disk : κ → ν} {contents : ν}

theorem Before.slot (before : t.Before old disk) {i : Nat} (bound : i < t.homes.length)
    (contents : ν) : t.Before old (update disk (layout.slot i) contents) where
  header := by
    rw [update_of_ne (Ne.symm (t.header i bound))]
    exact before.header
  outside := by
    intro address outside
    rw [update_of_ne (outside.2 i bound)]
    exact before.outside address outside

theorem Before.clear (before : t.Before old disk) (cleared : layout.listed contents = some []) :
    t.Before old (update disk layout.header contents) where
  header := by rwa [update_self]
  outside := by
    intro address outside
    rw [update_of_ne outside.1]
    exact before.outside address outside

theorem Before.commit (before : t.Before old disk)
    (logged : ∀ i (bound : i < t.homes.length), disk (layout.slot i) = t.new t.homes[i])
    (listed : layout.listed contents = some t.homes) :
    t.Committed old (update disk layout.header contents) where
  header := by rwa [update_self]
  logged := by
    intro i bound
    rw [update_of_ne (t.header i bound)]
    exact logged i bound
  outside := by
    intro address outside _
    rw [update_of_ne outside.1]
    exact before.outside address outside

theorem Committed.install (committed : t.Committed old disk) {home : κ} (member : home ∈ t.homes) :
    t.Committed old (update disk home (t.new home)) where
  header := by
    rw [update_of_ne (ne_of_mem_of_not_mem member t.headerHome).symm]
    exact committed.header
  logged := by
    intro i bound
    rw [update_of_ne (ne_of_mem_of_not_mem member (t.slotHome i bound)).symm]
    exact committed.logged i bound
  outside := by
    intro address outside other
    rw [update_of_ne (ne_of_mem_of_not_mem member other).symm]
    exact committed.outside address outside other

theorem Committed.clear (committed : t.Committed old disk)
    (installed : ∀ home ∈ t.homes, disk home = t.new home)
    (cleared : layout.listed contents = some []) :
    t.After old (update disk layout.header contents) where
  header := by rwa [update_self]
  installed := by
    intro home member
    rw [update_of_ne (ne_of_mem_of_not_mem member t.headerHome)]
    exact installed home member
  outside := by
    intro address outside other
    rw [update_of_ne outside.1]
    exact committed.outside address outside other

theorem After.clear (after : t.After old disk) (cleared : layout.listed contents = some []) :
    t.After old (update disk layout.header contents) where
  header := by rwa [update_self]
  installed := by
    intro home member
    rw [update_of_ne (ne_of_mem_of_not_mem member t.headerHome)]
    exact after.installed home member
  outside := by
    intro address outside other
    rw [update_of_ne outside.1]
    exact after.outside address outside other

variable (t)

def slotWrites : List (κ × ν) :=
  t.homes.mapIdx fun i home => (layout.slot i, t.new home)

def homeWrites : List (κ × ν) :=
  t.homes.map fun home => (home, t.new home)

def commitWrites (commit clear : ν) : List (κ × ν) :=
  t.slotWrites ++ (layout.header, commit) :: (t.homeWrites ++ [(layout.header, clear)])

variable {t}

omit [DecidableEq κ] in
theorem mem_slotWrites {write : κ × ν} : write ∈ t.slotWrites ↔
    ∃ i, ∃ bound : i < t.homes.length, write = (layout.slot i, t.new t.homes[i]) := by
  simp only [slotWrites, List.mem_mapIdx, eq_comm]

theorem Before.slotWrites (before : t.Before old disk) (cut : Nat) :
    t.Before old (apply disk (t.slotWrites.take cut)) := by
  refine apply_invariant (t.Before old) (fun write member disk before => ?_) before
  obtain ⟨i, bound, rfl⟩ := mem_slotWrites.mp (List.mem_of_mem_take member)
  exact before.slot bound _

theorem slotWrites_logged (disk : κ → ν) (i : Nat) (bound : i < t.homes.length) :
    apply disk t.slotWrites (layout.slot i) = t.new t.homes[i] := by
  have distinct : (t.slotWrites.map Prod.fst).Nodup := by
    rw [List.nodup_iff_injective_get]
    intro first second same
    obtain ⟨first, boundFirst⟩ := first
    obtain ⟨second, boundSecond⟩ := second
    simp only [Transaction.slotWrites, List.length_map, List.length_mapIdx] at boundFirst
    simp only [Transaction.slotWrites, List.length_map, List.length_mapIdx] at boundSecond
    simp only [Transaction.slotWrites, List.get_eq_getElem, List.getElem_map,
      List.getElem_mapIdx] at same
    have equal := t.slots first boundFirst second boundSecond same
    exact Fin.ext equal
  exact apply_mem distinct (mem_slotWrites.mpr ⟨i, bound, rfl⟩) disk

theorem Committed.homeWrites (committed : t.Committed old disk) (cut : Nat) :
    t.Committed old (apply disk (t.homeWrites.take cut)) := by
  refine apply_invariant (t.Committed old) (fun write member disk committed => ?_) committed
  obtain ⟨home, isHome, rfl⟩ := List.mem_map.mp (List.mem_of_mem_take member)
  exact committed.install isHome

theorem homeWrites_installed (disk : κ → ν) (home : κ) (member : home ∈ t.homes) :
    apply disk t.homeWrites home = t.new home := by
  have distinct : (t.homeWrites.map Prod.fst).Nodup := by
    simpa [Transaction.homeWrites, Function.comp_def] using t.distinct
  exact apply_mem distinct (List.mem_map.mpr ⟨home, member, rfl⟩) disk

section

variable (committed : t.Committed old disk) (cleared : layout.listed contents = some [])
include committed cleared

theorem Committed.finish :
    t.After old (apply disk (t.homeWrites ++ [(layout.header, contents)])) := by
  have installed := committed.homeWrites t.homeWrites.length
  rw [List.take_length] at installed
  rw [apply_append]
  exact installed.clear (homeWrites_installed disk) cleared

theorem Committed.finish_cut (cut : Nat) :
    t.Committed old (apply disk ((t.homeWrites ++ [(layout.header, contents)]).take cut)) ∨
      t.After old (apply disk ((t.homeWrites ++ [(layout.header, contents)]).take cut)) := by
  by_cases inside : cut ≤ t.homeWrites.length
  · rw [List.take_append_of_le_length inside]
    exact .inl (committed.homeWrites cut)
  · rw [List.take_of_length_le (by simp; omega)]
    exact .inr (committed.finish cleared)

end

omit [DecidableEq κ] in
theorem mem_take_commitWrites {commit clear : ν} {cut : Nat} (late : t.homes.length < cut) :
    (layout.header, commit) ∈ (t.commitWrites commit clear).take cut := by
  have length : t.slotWrites.length = t.homes.length := List.length_mapIdx
  rw [List.mem_take_iff_getElem]
  refine ⟨t.slotWrites.length, ?_, ?_⟩
  · simp only [commitWrites, List.length_append, List.length_cons]
    omega
  · simp [commitWrites]

omit [DecidableEq κ] in
theorem not_mem_take_commitWrites {commit clear contents : ν} {cut : Nat}
    (early : cut ≤ t.homes.length) :
    (layout.header, contents) ∉ (t.commitWrites commit clear).take cut := by
  have length : t.slotWrites.length = t.homes.length := List.length_mapIdx
  rw [commitWrites, List.take_append_of_le_length (length ▸ early)]
  intro member
  obtain ⟨i, bound, same⟩ := mem_slotWrites.mp (List.mem_of_mem_take member)
  exact t.header i bound (congrArg Prod.fst same).symm

theorem Before.commit_cut (before : t.Before old disk) {commit clear : ν}
    (listed : layout.listed commit = some t.homes) (cleared : layout.listed clear = some [])
    (cut : Nat) :
    (cut ≤ t.homes.length →
      t.Before old (apply disk ((t.commitWrites commit clear).take cut))) ∧
    (t.homes.length < cut →
      t.Committed old (apply disk ((t.commitWrites commit clear).take cut)) ∨
        t.After old (apply disk ((t.commitWrites commit clear).take cut))) := by
  have length : t.slotWrites.length = t.homes.length := List.length_mapIdx
  constructor
  · intro early
    rw [commitWrites, List.take_append_of_le_length (length ▸ early)]
    exact before.slotWrites cut
  · intro late
    obtain ⟨rest, rfl⟩ : ∃ rest, cut = t.slotWrites.length + (rest + 1) :=
      ⟨cut - t.slotWrites.length - 1, by omega⟩
    rw [commitWrites, List.take_length_add_append, List.take_succ_cons, apply_append, apply_cons]
    have written := before.slotWrites t.slotWrites.length
    rw [List.take_length] at written
    exact (written.commit (slotWrites_logged disk) listed).finish_cut cleared rest

end Transaction

/-- The writes of a recovery: the slots go to the homes that the header lists, then the header
is cleared. -/
def Layout.recovery (layout : Layout κ ν) (clear : ν → ν) (disk : κ → ν) : List (κ × ν) :=
  (((layout.listed (disk layout.header)).getD []).mapIdx fun i home =>
    (home, disk (layout.slot i))) ++
    [(layout.header, clear (disk layout.header))]

theorem Layout.recovery_header (layout : Layout κ ν) (clear : ν → ν) (disk : κ → ν) :
    apply disk (layout.recovery clear disk) layout.header = clear (disk layout.header) := by
  rw [Layout.recovery, apply_append, apply_cons, apply_nil, update_self]

namespace Transaction

variable {layout : Layout κ ν} {t : Transaction layout} {old : κ → ν} {clear : ν → ν} {disk : κ → ν}

omit [DecidableEq κ] in
theorem recovery_empty (empty : layout.listed (disk layout.header) = some []) :
    layout.recovery clear disk = [(layout.header, clear (disk layout.header))] := by
  simp [Layout.recovery, empty]

omit [DecidableEq κ] in
theorem Committed.recovery_eq (committed : t.Committed old disk) :
    layout.recovery clear disk =
      t.homeWrites ++ [(layout.header, clear (disk layout.header))] := by
  rw [Layout.recovery, committed.header, Option.getD_some, Transaction.homeWrites]
  congr 1
  apply List.ext_getElem (by simp)
  intro i bound _
  simp only [List.length_mapIdx] at bound
  simp [committed.logged i bound]

theorem Before.recovery_cut (before : t.Before old disk)
    (cleared : ∀ contents, layout.listed (clear contents) = some []) (cut : Nat) :
    t.Before old (apply disk ((layout.recovery clear disk).take cut)) := by
  rw [recovery_empty before.header]
  cases cut with
  | zero => exact before
  | succ cut => simpa using before.clear (cleared _)

section

variable (kept : t.Committed old disk ∨ t.After old disk)
  (cleared : ∀ contents, layout.listed (clear contents) = some [])
include kept cleared

theorem Committed.recovery_cut (cut : Nat) :
    t.Committed old (apply disk ((layout.recovery clear disk).take cut)) ∨
      t.After old (apply disk ((layout.recovery clear disk).take cut)) := by
  rcases kept with committed | after
  · rw [committed.recovery_eq]
    exact committed.finish_cut (cleared _) cut
  · rw [recovery_empty after.header]
    cases cut with
    | zero => exact .inr after
    | succ cut => exact .inr (by simpa using after.clear (cleared _))

theorem Committed.recovery : t.After old (apply disk (layout.recovery clear disk)) := by
  rcases kept with committed | after
  · rw [committed.recovery_eq]
    exact committed.finish (cleared _)
  · rw [recovery_empty after.header]
    exact after.clear (cleared _)

end

end Transaction

end RedoLog
