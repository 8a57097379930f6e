import Xv6.Library.ByteSpace
import Xv6.Vm.Release

/-!
# Copying to user addresses

`uva2ka` and `copyout`. The user sees the bytes of the frames behind the pages that are present and
user-accessible; `copyout` writes there page by page, up to the first page that is not accessible.
It reads the entry of each page on its way without a test that the page table is there.
-/

namespace Xv6

open BitVec (toNat_add eq_of_toNat_eq toNat_sub ofNat ofNat_add toNat_ofNat)
open Bytes (Byte getByte putBytes)
open ByteSpace (Memory)
open Program

namespace Mem

def userFrame (s : Mem) (pgdir va : Word) : Option Word :=
  if HasFlag pteU (s.entry pgdir va) then s.frameOf pgdir va else none

def userMemory (s : Mem) (pgdir : Word) : Memory := fun a =>
  (s.userFrame pgdir a).elim 0 fun v => getByte (s.page v) (a.toNat % 4096)

def putPage (s : Mem) (v : Word) (start : Nat) (bytes : List Byte) : Mem :=
  { s with page := Function.update s.page v (putBytes (s.page v) start bytes) }

theorem putPage_nil (s : Mem) (v : Word) (start : Nat) : s.putPage v start [] = s := by
  have same : putBytes (s.page v) start [] = s.page v := by
    funext word
    rw [putBytes]
    split
    · simp only [List.getD_nil, ite_self]
      exact Bytes.ofBytes_byteOf _
    · rfl
  rw [putPage, same, Function.update_eq_self]

/-- The frames that the user reaches lie behind one page each and are not pages of the directory
itself. -/
structure Private (s : Mem) (pgdir : Word) : Prop where
  outside : ∀ a v, s.userFrame pgdir a = some v → ¬ s.Structural pgdir v
  injective : ∀ a b v, s.userFrame pgdir a = some v → s.userFrame pgdir b = some v →
    pgRoundDown a = pgRoundDown b

variable {s s' : Mem} {pgdir va v x : Word} {bytes more : List Byte}

theorem indices_congr {a b : Word} (same : pgRoundDown a = pgRoundDown b) :
    pdx a = pdx b ∧ ptx a = ptx b := by
  have number := congrArg BitVec.toNat same
  rw [pgRoundDown_toNat, pgRoundDown_toNat] at number
  constructor
  · rw [Fin.ext_iff, pdx_val, pdx_val]
    omega
  · rw [Fin.ext_iff, ptx_val, ptx_val]
    omega

theorem userFrame_page {a b : Word} (same : pgRoundDown a = pgRoundDown b) :
    s.userFrame pgdir a = s.userFrame pgdir b := by
  obtain ⟨directory, table⟩ := indices_congr same
  rw [userFrame, userFrame, frameOf, frameOf, entry, entry, directory, table]

theorem page_of_distance {length : Nat} (fits : va.toNat % 4096 + length ≤ 4096)
    (inside : (x - va).toNat < length) : pgRoundDown x = pgRoundDown va := by
  have here : x = va + (x - va) := by rw [BitVec.add_comm, BitVec.sub_add_cancel]
  have bound := va.isLt
  have number : x.toNat = va.toNat + (x - va).toNat := by
    have sum := congrArg BitVec.toNat here
    rw [toNat_add] at sum
    omega
  apply eq_of_toNat_eq
  rw [pgRoundDown_toNat, pgRoundDown_toNat]
  omega

theorem getByte_putPage (fits : va.toNat % 4096 + bytes.length ≤ 4096)
    (same : pgRoundDown x = pgRoundDown va) (page : Page) :
    getByte (putBytes page (va.toNat % 4096) bytes) (x.toNat % 4096) =
      bytes.getD (x - va).toNat (getByte page (x.toNat % 4096)) := by
  have number := congrArg BitVec.toNat same
  rw [pgRoundDown_toNat, pgRoundDown_toNat] at number
  have bound := x.isLt
  have bound' := va.isLt
  have position : x.toNat % 4096 < 4 * npentries := Nat.mod_lt _ (by decide)
  rw [Bytes.getByte_putBytes _ _ _ position]
  split
  · have distance : (x - va).toNat = x.toNat % 4096 - va.toNat % 4096 := by
      rw [toNat_sub]
      omega
    rw [distance]
  · have beyond : bytes.length ≤ (x - va).toNat := by
      rw [toNat_sub]
      omega
    rw [List.getD_eq_default _ _ beyond]

theorem Private.putPage (closed : s.Private pgdir) (frame : s.userFrame pgdir va = some v)
    (fits : va.toNat % 4096 + bytes.length ≤ 4096) :
    (s.putPage v (va.toNat % 4096) bytes).tableAt pgdir = s.tableAt pgdir ∧
      (s.putPage v (va.toNat % 4096) bytes).pte pgdir = s.pte pgdir ∧
      (s.putPage v (va.toNat % 4096) bytes).userMemory pgdir =
        ByteSpace.write (s.userMemory pgdir) va bytes := by
  have others : ∀ w, w ≠ v → (s.putPage v (va.toNat % 4096) bytes).page w = s.page w :=
    fun w differ => Function.update_of_ne differ ..
  have structural : ∀ w, s.Structural pgdir w →
      (s.putPage v (va.toNat % 4096) bytes).page w = s.page w := by
    intro w part
    refine others w ?_
    rintro rfl
    exact closed.outside va w frame part
  have tables : (s.putPage v (va.toNat % 4096) bytes).tableAt pgdir = s.tableAt pgdir := by
    funext i
    rw [tableAt, tableAt, structural pgdir (.inl rfl)]
  obtain ⟨pte, -⟩ := view_congr tables fun i pgtab there => structural pgtab (.inr ⟨i, there⟩)
  refine ⟨tables, pte, ?_⟩
  funext x
  have frames : (s.putPage v (va.toNat % 4096) bytes).userFrame pgdir x = s.userFrame pgdir x := by
    rw [userFrame, userFrame, frameOf, frameOf, entry, entry, pte]
  rw [userMemory, frames]
  by_cases same : pgRoundDown x = pgRoundDown va
  · have here : s.userFrame pgdir x = some v := (userFrame_page same).trans frame
    rw [here, ByteSpace.write, userMemory, here]
    show getByte (Function.update s.page v _ v) _ = _
    rw [Function.update_self, getByte_putPage fits same]
    rfl
  · have outside : bytes.length ≤ (x - va).toNat := by
      by_contra inside
      exact same (page_of_distance fits (Nat.lt_of_not_le inside))
    rw [ByteSpace.write_outside outside, userMemory]
    cases here : s.userFrame pgdir x with
    | none => rfl
    | some w =>
      have differ : w ≠ v := by
        rintro rfl
        exact same (closed.injective x va w here frame)
      show getByte (Mem.page _ w) _ = _
      rw [others w differ]
      rfl

structure Copied (s : Mem) (pgdir va : Word) (bytes : List Byte) (s' : Mem) : Prop where
  accessible : ∀ n < bytes.length, s.userFrame pgdir (va + BitVec.ofNat 32 n) ≠ none
  memory : s'.userMemory pgdir = ByteSpace.write (s.userMemory pgdir) va bytes
  tables : s'.tableAt pgdir = s.tableAt pgdir
  entries : s'.pte pgdir = s.pte pgdir
  kept : ∀ v, (∀ n < bytes.length, s.userFrame pgdir (va + BitVec.ofNat 32 n) ≠ some v) →
    s'.page v = s.page v
  freelist : s'.freelist = s.freelist
  outages : s'.outages = s.outages

namespace Copied

theorem refl (s : Mem) (pgdir va : Word) : s.Copied pgdir va [] s where
  accessible _ inside := absurd inside (Nat.not_lt_zero _)
  memory := rfl
  tables := rfl
  entries := rfl
  kept _ _ := rfl
  freelist := rfl
  outages := rfl

theorem userFrame (copied : s.Copied pgdir va bytes s') :
    s'.userFrame pgdir = s.userFrame pgdir := by
  funext a
  rw [Mem.userFrame, Mem.userFrame, frameOf, frameOf, entry, entry, copied.entries]

theorem closed (copied : s.Copied pgdir va bytes s') (closed : s.Private pgdir) :
    s'.Private pgdir := by
  refine ⟨fun a v => ?_, fun a b v => ?_⟩
  · rw [copied.userFrame, Structural, copied.tables]
    exact closed.outside a v
  · rw [copied.userFrame]
    exact closed.injective a b v

theorem append {s'' : Mem} {next : Word} (first : s.Copied pgdir va bytes s')
    (second : s'.Copied pgdir next more s'') (adjacent : next = va + ofNat 32 bytes.length)
    (small : bytes.length + more.length ≤ 2 ^ 32) : s.Copied pgdir va (bytes ++ more) s'' := by
  have step : ∀ n, va + ofNat 32 (bytes.length + n) = next + ofNat 32 n := by
    intro n
    rw [adjacent, BitVec.add_assoc, ← ofNat_add]
  refine ⟨?_, ?_, by rw [second.tables, first.tables], by rw [second.entries, first.entries], ?_,
    by rw [second.freelist, first.freelist], by rw [second.outages, first.outages]⟩
  · intro n inside
    rw [List.length_append] at inside
    by_cases early : n < bytes.length
    · exact first.accessible n early
    · obtain ⟨m, rfl⟩ := Nat.exists_eq_add_of_le (Nat.le_of_not_lt early)
      rw [step m, ← first.userFrame]
      exact second.accessible m (by omega)
  · rw [second.memory, first.memory, adjacent, ByteSpace.write_append rfl small]
  · intro v others
    rw [List.length_append] at others
    rw [second.kept v, first.kept v]
    · exact fun n inside => others n (by omega)
    · intro n inside
      rw [first.userFrame, ← step n]
      exact others (bytes.length + n) (by omega)

theorem page (closed : s.Private pgdir) (frame : s.userFrame pgdir va = some v) (bytes : List Byte)
    (fits : va.toNat % 4096 + bytes.length ≤ 4096) :
    s.Copied pgdir va bytes (s.putPage v (va.toNat % 4096) bytes) := by
  obtain ⟨tables, entries, memory⟩ := closed.putPage frame fits
  have here : ∀ n < bytes.length, s.userFrame pgdir (va + ofNat 32 n) = Option.some v := by
    intro n inside
    have distance : (va + ofNat 32 n - va).toNat = n := by
      rw [BitVec.add_comm, BitVec.add_sub_cancel, toNat_ofNat]
      omega
    rw [userFrame_page (page_of_distance fits (by rw [distance]; exact inside)), frame]
  refine ⟨fun n inside => by rw [here n inside]; nofun, memory, tables, entries, ?_, rfl, rfl⟩
  intro w others
  cases bytes with
  | nil => rw [putPage_nil]
  | cons first rest =>
    refine Function.update_of_ne ?_ ..
    rintro rfl
    exact others 0 (Nat.succ_pos _) (here 0 (Nat.succ_pos _))

end Copied

end Mem

namespace Vm

variable {s : Mem} {pgdir va : Word} {buf : List Byte} {fault : Fault → Prop}

theorem wp_uva2ka {post : Option Word → Mem → Prop}
    (missing : s.tableAt pgdir (pdx va) = none → fault .nullDeref)
    (found : s.tableAt pgdir (pdx va) ≠ none → post (s.userFrame pgdir va) s) :
    Wp (uva2ka pgdir va) post fault s := by
  rw [uva2ka, wp_bind, wp_walk]
  cases there : s.tableAt pgdir (pdx va) with
  | none => exact missing there
  | some pgtab =>
    have entry : s.page pgtab (ptx va) = s.entry pgdir va := (Mem.pte_of_table there).symm
    have result := found (by rw [there]; nofun)
    rw [Mem.userFrame, Mem.frameOf, target] at result
    simp only [Option.map_some, loadEntry, wp_bind, wp_get, wp_pure, entry]
    by_cases present : HasFlag pteP (s.entry pgdir va) <;>
    by_cases user : HasFlag pteU (s.entry pgdir va) <;>
    simpa [present, user] using result

/-- Each page that is reached has a page table: the first page, and each page behind accessible
ones. -/
def Walkable (s : Mem) (pgdir va : Word) (length : Nat) : Prop :=
  ∀ n < length, (∀ m < n, s.userFrame pgdir (va + BitVec.ofNat 32 m) ≠ none) →
    s.tableAt pgdir (pdx (va + BitVec.ofNat 32 n)) ≠ none

/-- How `copyout` ends after `n` of the bytes: with all of them copied, or at a page with a page
table that the user may not access. -/
def Stops (s : Mem) (pgdir va : Word) (length n : Nat) (r : Int) : Prop :=
  r = 0 ∧ n = length ∨ r = -1 ∧ n < length ∧
    s.userFrame pgdir (va + BitVec.ofNat 32 n) = none ∧
    s.tableAt pgdir (pdx (va + BitVec.ofNat 32 n)) ≠ none

theorem table_of_userFrame {a : Word} (frame : s.userFrame pgdir a ≠ none) :
    s.tableAt pgdir (pdx a) ≠ none := by
  have mapped : s.frameOf pgdir a ≠ none := by
    rw [Mem.userFrame] at frame
    split at frame
    · exact frame
    · exact absurd rfl frame
  obtain ⟨pgtab, there⟩ := Mem.exists_table mapped
  rw [there]
  nofun

variable {next : Word}

theorem add_behind {count : Nat} (adjacent : next = va + ofNat 32 count) (n : Nat) :
    va + ofNat 32 (count + n) = next + ofNat 32 n := by
  rw [adjacent, BitVec.add_assoc, ← ofNat_add]

theorem Walkable.drop {s' : Mem} {bytes : List Byte} {rest : Nat}
    (walkable : Walkable s pgdir va (bytes.length + rest)) (copied : s.Copied pgdir va bytes s')
    (adjacent : next = va + ofNat 32 bytes.length) : Walkable s' pgdir next rest := by
  intro n inside before
  rw [copied.tables, ← add_behind adjacent n]
  refine walkable _ (by omega) fun m earlier => ?_
  by_cases first : m < bytes.length
  · exact copied.accessible m first
  · obtain ⟨m, rfl⟩ := Nat.exists_eq_add_of_le (Nat.le_of_not_lt first)
    rw [add_behind adjacent m, ← copied.userFrame]
    exact before m (by omega)

theorem Stops.behind {s' : Mem} {bytes : List Byte} {rest n : Nat} {r : Int}
    (stops : Stops s' pgdir next rest n r) (copied : s.Copied pgdir va bytes s')
    (adjacent : next = va + ofNat 32 bytes.length) :
    Stops s pgdir va (bytes.length + rest) (bytes.length + n) r := by
  rcases stops with ⟨zero, all⟩ | ⟨failed, short, none, there⟩
  · exact .inl ⟨zero, by rw [all]⟩
  · refine .inr ⟨failed, by omega, ?_, ?_⟩
    · rw [add_behind adjacent n, ← copied.userFrame, none]
    · rw [add_behind adjacent n, ← copied.tables]
      exact there

theorem page_offset : (va - pgRoundDown va).toNat = va.toNat % 4096 := by
  have rounded := pgRoundDown_toNat (a := va)
  rw [toNat_sub]
  omega

theorem page_room : (pgsize - (va - pgRoundDown va)).toNat = 4096 - va.toNat % 4096 := by
  rw [toNat_sub, page_offset]
  show (2 ^ 32 - va.toNat % 4096 + 4096) % 2 ^ 32 = _
  omega

theorem next_page {n : Nat} (rest : n = 4096 - va.toNat % 4096) :
    pgRoundDown va + pgsize = va + ofNat 32 n := by
  have rounded := pgRoundDown_toNat (a := va)
  apply eq_of_toNat_eq
  rw [toNat_add, toNat_add, rounded, toNat_ofNat]
  show (_ + 4096) % 2 ^ 32 = _
  omega

theorem copyoutLoop_nil {fuel : Nat} (enough : 0 < fuel) :
    copyoutLoop pgdir fuel va [] = pure 0 := by
  obtain ⟨fuel, rfl⟩ := Nat.exists_eq_succ_of_ne_zero (Nat.ne_of_gt enough)
  rw [copyoutLoop]
  exact if_neg (Nat.lt_irrefl 0)

theorem wp_copyoutLoop (fuel : Nat) (closed : s.Private pgdir) (small : buf.length ≤ 2 ^ 32)
    (enough : (va.toNat % 4096 + buf.length + 4095) / 4096 < fuel)
    (missing : ¬ Walkable s pgdir va buf.length → fault .nullDeref) :
    Wp (copyoutLoop pgdir fuel va buf) (fun r s' => ∃ front, front <+: buf ∧
      s.Copied pgdir va front s' ∧ Stops s pgdir va buf.length front.length r) fault s := by
  induction fuel generalizing s va buf with
  | zero => exact absurd enough (Nat.not_lt_zero _)
  | succ fuel ih =>
    rw [copyoutLoop]
    by_cases more : buf.length > 0
    · have same : pgRoundDown (pgRoundDown va) = pgRoundDown va :=
        pgRoundDown_aligned.pgRoundDown
      have zero : va + ofNat 32 0 = va := BitVec.add_zero va
      rw [if_pos more]
      simp only [wp_bind]
      apply wp_uva2ka
      · rw [(Mem.indices_congr same).1]
        intro none
        refine missing fun walkable =>
          walkable 0 more (fun m early => ?_) (by rw [zero]; exact none)
        exact absurd early (Nat.not_lt_zero _)
      · rw [(Mem.indices_congr same).1, Mem.userFrame_page same]
        intro there
        cases frame : s.userFrame pgdir va with
        | none =>
          refine ⟨[], List.nil_prefix, .refl s pgdir va, .inr ⟨rfl, more, ?_, ?_⟩⟩
          · rw [List.length_nil, zero, frame]
          · rw [List.length_nil, zero]
            exact there
        | some v =>
          simp only [page_room, page_offset, setPage, wp_bind, wp_get, wp_modify]
          generalize count : min (4096 - va.toNat % 4096) buf.length = n
          have taken : (buf.take n).length = n := List.length_take_of_le (by omega)
          have whole : (buf.take n).length + (buf.drop n).length = buf.length := by
            rw [taken, List.length_drop]
            omega
          have first := Mem.Copied.page closed frame (buf.take n) (by rw [taken]; omega)
          show Wp _ _ _ (s.putPage v (va.toNat % 4096) (buf.take n))
          by_cases last : buf.drop n = []
          · rw [last, copyoutLoop_nil (by omega), wp_pure]
            have all : buf.take n = buf := by
              have joined := List.take_append_drop n buf
              rwa [last, List.append_nil] at joined
            rw [all] at first ⊢
            exact ⟨buf, List.prefix_refl _, first, .inl ⟨rfl, rfl⟩⟩
          · have left : 0 < (buf.drop n).length := List.length_pos_iff.mpr last
            have adjacent : pgRoundDown va + pgsize =
                va + ofNat 32 (buf.take n).length := by
              rw [taken]
              exact next_page (by omega)
            have start : (pgRoundDown va + pgsize).toNat % 4096 = 0 :=
              aligned_iff.mp (aligned_next pgRoundDown_aligned)
            rw [← whole] at missing ⊢
            refine (ih (first.closed closed) (by omega) ?_ ?_).imp ?_
            · rw [start]
              omega
            · exact fun stuck => missing fun walkable => stuck (walkable.drop first adjacent)
            · rintro r s' ⟨front, part, copied, stops⟩
              refine ⟨buf.take n ++ front, ?_, first.append copied adjacent ?_, ?_⟩
              · have joined := (List.prefix_append_right_inj (buf.take n)).mpr part
                rwa [List.take_append_drop] at joined
              · have short := part.length_le
                omega
              · rw [List.length_append]
                exact stops.behind first adjacent
    · have empty : buf = [] := List.eq_nil_of_length_eq_zero (by omega)
      rw [if_neg more, empty]
      exact ⟨[], List.nil_prefix, .refl s pgdir va, .inl ⟨rfl, rfl⟩⟩

theorem wp_copyout (closed : s.Private pgdir) (small : buf.length < 2 ^ 32)
    (missing : ¬ Walkable s pgdir va buf.length → fault .nullDeref) :
    Wp (copyout pgdir va buf) (fun r s' => ∃ front, front <+: buf ∧
      s.Copied pgdir va front s' ∧ Stops s pgdir va buf.length front.length r) fault s :=
  wp_copyoutLoop _ closed (Nat.le_of_lt small) (by omega) missing

theorem Stops.walkable {n : Nat} {r : Int} (stops : Stops s pgdir va buf.length n r)
    (accessible : ∀ m < n, s.userFrame pgdir (va + ofNat 32 m) ≠ none) :
    Walkable s pgdir va buf.length := by
  intro m inside before
  by_cases early : m < n
  · exact table_of_userFrame (accessible m early)
  · rcases stops with ⟨-, all⟩ | ⟨-, -, none, there⟩
    · omega
    · obtain rfl | later : m = n ∨ n < m := by omega
      · exact there
      · exact absurd none (before n later)

/-- `copyout` returns exactly when each page that it reaches has a page table, and follows a null
pointer otherwise. It returns zero exactly when the user may access all addresses; then the bytes
are at these addresses and nothing else is changed. Otherwise a first part of the bytes is at
accessible addresses and nothing else is changed. -/
theorem copyout_copies_iff (closed : s.Private pgdir) (va : Word) (buf : List Byte)
    (small : buf.length < 2 ^ 32) :
    ((∃ r s', copyout pgdir va buf s = .ok (r, s')) ↔ Walkable s pgdir va buf.length) ∧
      (¬ Walkable s pgdir va buf.length → copyout pgdir va buf s = .error .nullDeref) ∧
      ∀ r s', copyout pgdir va buf s = .ok (r, s') →
        (r = 0 ∨ r = -1) ∧
        (r = 0 ↔ ∀ n < buf.length, s.userFrame pgdir (va + BitVec.ofNat 32 n) ≠ none) ∧
        (r = 0 → s.Copied pgdir va buf s') ∧
        ∃ front, front <+: buf ∧ s.Copied pgdir va front s' := by
  have known : Wp (copyout pgdir va buf) (fun r s' => ∃ front, front <+: buf ∧
      s.Copied pgdir va front s' ∧ Stops s pgdir va buf.length front.length r)
      (fun stopped => stopped = .nullDeref ∧ ¬ Walkable s pgdir va buf.length) s :=
    wp_copyout closed small fun stuck => ⟨rfl, stuck⟩
  have returns : (∃ r s', copyout pgdir va buf s = .ok (r, s')) ↔
      Walkable s pgdir va buf.length := by
    constructor
    · rintro ⟨r, s', returned⟩
      obtain ⟨front, -, copied, stops⟩ := known.ok returned
      exact stops.walkable copied.accessible
    · intro walkable
      cases ran : copyout pgdir va buf s with
      | ok outcome => exact ⟨outcome.1, outcome.2, rfl⟩
      | error stopped => exact absurd walkable (known.error ran).2
  refine ⟨returns, fun stuck => ?_, fun r s' returned => ?_⟩
  · cases ran : copyout pgdir va buf s with
    | ok outcome => exact absurd (returns.mp ⟨outcome.1, outcome.2, ran⟩) stuck
    | error stopped => rw [(known.error ran).1]
  · obtain ⟨front, part, copied, stops⟩ := known.ok returned
    rcases stops with ⟨rfl, all⟩ | ⟨rfl, short, none, -⟩
    · obtain rfl : front = buf := part.eq_of_length all
      exact ⟨.inl rfl, ⟨fun _ => copied.accessible, fun _ => rfl⟩, fun _ => copied, front, part,
        copied⟩
    · refine ⟨.inr rfl, ⟨fun zero => absurd zero (by decide), fun accessible => ?_⟩,
        fun zero => absurd zero (by decide), front, part, copied⟩
      exact absurd none (accessible _ short)

end Vm

theorem Space.closed {k : Image} {s : Mem} {pgdir : Word} (space : Space k s pgdir)
    (kernel : ∀ b, kernbase ≤ b → ¬ HasFlag pteU (s.entry pgdir b)) : s.Private pgdir := by
  have held : ∀ {a v}, s.userFrame pgdir a = some v →
      s.held pgdir (.frame (pdx a) (ptx a)) = some v := by
    intro a v frame
    rw [Mem.userFrame] at frame
    split at frame
    · rename_i user
      refine Space.held_of_frameOf (BitVec.not_le.mp fun above => ?_) frame
      exact kernel a above user
    · cases frame
  refine ⟨fun a v frame => space.frame_not_structural (held frame), fun a b v first second => ?_⟩
  obtain ⟨directory, table⟩ := Mem.Role.frame.inj (space.injective (held first) (held second))
  rw [Fin.ext_iff, pdx_val, pdx_val] at directory
  rw [Fin.ext_iff, ptx_val, ptx_val] at table
  apply eq_of_toNat_eq
  rw [pgRoundDown_toNat, pgRoundDown_toNat]
  omega

namespace Vm

theorem sparse_private : sparse.Private 0x80200000 := by
  refine sparse_space.closed fun b above => ?_
  have missing : sparse.tableAt 0x80200000 (pdx b) = none := by
    rw [sparse, single_tables, if_neg]
    intro one
    have index := congrArg Fin.val one
    have high : 2 ^ 31 ≤ b.toNat := BitVec.le_def.mp above
    rw [pdx_val] at index
    have low : b.toNat / 2 ^ 22 = 1 := index
    omega
  rw [Mem.entry, Mem.pte_of_missing missing]
  decide

/-- Two bytes at the end of the page are copied. -/
theorem copyout_copies_end : ∃ s', copyout 0x80200000 0x400FFE [0x41, 0x42] sparse = .ok (0, s') ∧
    sparse.Copied 0x80200000 0x400FFE [0x41, 0x42] s' := by
  obtain ⟨returns, -, copies⟩ :=
    copyout_copies_iff sparse_private 0x400FFE [0x41, 0x42] (by decide)
  have accessible : ∀ n < 2, sparse.userFrame 0x80200000 (0x400FFE + BitVec.ofNat 32 n) ≠ none := by
    decide +kernel
  obtain ⟨r, s', returned⟩ := returns.mpr fun n inside _ =>
    table_of_userFrame (accessible n inside)
  obtain ⟨-, zero, copied, -⟩ := copies r s' returned
  obtain rfl := zero.mpr accessible
  exact ⟨s', returned, copied rfl⟩

/-- A byte for an address without a page table: a null pointer is followed. -/
theorem copyout_faults : copyout 0x80200000 0x800000 [0x41] sparse = .error .nullDeref := by
  have checked : Wp (copyout 0x80200000 0x800000 [0x41]) (fun _ _ => False) (· = .nullDeref)
      sparse := by
    decide +kernel
  cases ran : copyout 0x80200000 0x800000 [0x41] sparse with
  | ok outcome => exact (checked.ok ran).elim
  | error stopped => rw [checked.error ran]

end Vm

end Xv6
