import Xv6.Param
import Xv6.User.Match

/-!
# Lines of `grep`

`grep` of `grep.c`. The input arrives in pieces, as a pipe or the console hands it over: `read`
returns the piece that is there, or as much of it as was asked for. The buffer is a list of bytes,
pointers into it are positions, and each call of `write` is recorded with its bytes.

The buffer keeps the part of a line that has arrived only if an earlier line ended in it. When a
`read` brings no end of a line, `p == buf` and the line is dropped. So the output is right for every
pattern exactly when no such `read` is followed by the end of a line.
-/

namespace Xv6

open List (getLast length_append length_cons append_assoc cons_append mem_append mem_cons_self
  mem_cons append_nil mem_cons_of_mem length_set flatten_cons length_drop take_left)

namespace Grep

open Bytes (Byte)

def newline : Byte := 0x0A

def bufSize : Nat := 1024

abbrev Input := List (List Byte)

def read (n : Nat) : Input → List Byte × Input
  | [] => ([], [])
  | piece :: rest =>
    if piece.length ≤ n then (piece, rest) else (piece.take n, piece.drop n :: rest)

def strchr (c : Byte) : List Byte → Option Nat
  | [] => none
  | x :: s => if x = 0 then none else if x = c then some 0 else (strchr c s).map (· + 1)

def stringAt (buf : List Byte) (p : Nat) : List Byte := (buf.drop p).takeWhile (· ≠ 0)

/-- The inner loop: the lines of the buffer from `p` on. Returns the position behind the last line
and the buffer, with what was written. -/
def scan (pattern : List Byte) : Nat → List Byte → Nat → List (List Byte) →
    Except Fault (Nat × List Byte × List (List Byte))
  | 0, _, _, _ => .error .diverges
  | turns + 1, buf, p, written =>
    match strchr newline (buf.drop p) with
    | none => .ok (p, buf, written)
    | some k =>
      let q := p + k
      let buf := buf.set q 0
      if matchText pattern (stringAt buf p) then
        let buf := buf.set q newline
        scan pattern turns buf (q + 1) (written ++ [(buf.drop p).take (q + 1 - p)])
      else scan pattern turns buf (q + 1) written

def loop (pattern : List Byte) : Nat → List Byte → Nat → Input → List (List Byte) →
    Except Fault (List (List Byte))
  | 0, _, _, _, _ => .error .diverges
  | turns + 1, buf, m, input, written =>
    let (bytes, input) := read (bufSize - m - 1) input
    if bytes = [] then .ok written
    else do
      let m' := m + bytes.length
      let buf := (buf.take m ++ bytes ++ buf.drop m').set m' 0
      let (p, buf, written) ← scan pattern bufSize buf 0 written
      let m' := if p = 0 then 0 else m'
      if 0 < m' then
        let m' := m' - p
        loop pattern turns ((buf.drop p).take m' ++ buf.drop m') m' input written
      else loop pattern turns buf m' input written

/-- `grep`: the lines that are written. The buffer is zero when the program starts. -/
def grep (pattern : List Byte) (input : Input) : Except Fault (List (List Byte)) :=
  loop pattern (input.flatten.length + 1) (List.replicate bufSize 0) 0 input []

def lines (text : List Byte) : List (List Byte) := (text.splitOn newline).dropLast

def lastPart (text : List Byte) : List Byte := (text.splitOn newline).getLastD []

def wanted (pattern text : List Byte) : List (List Byte) :=
  ((lines text).filter (matchText pattern)).map (· ++ [newline])

def carried (a bytes : List Byte) : List Byte :=
  if bytes.contains newline then lastPart (a ++ bytes) else []

/-- The bytes that the calls of `read` return, from the one on that finds a part of a line in the
buffer. -/
def reads : Nat → List Byte → Input → List (List Byte)
  | 0, _, _ => []
  | more + 1, a, input =>
    let (bytes, rest) := read (bufSize - a.length - 1) input
    if bytes = [] then [] else bytes :: reads more (carried a bytes) rest

def Unbroken (chunks : List (List Byte)) : Prop :=
  chunks.Pairwise fun c d => newline ∈ d → newline ∈ c

instance (chunks : List (List Byte)) : Decidable (Unbroken chunks) :=
  inferInstanceAs (Decidable (List.Pairwise _ _))

def chunks (input : Input) : List (List Byte) := reads (input.flatten.length + 1) [] input

def Short (text : List Byte) : Prop := ∀ line ∈ text.splitOn newline, line.length ≤ 1022

instance (text : List Byte) : Decidable (Short text) := inferInstanceAs (Decidable (∀ _ ∈ _, _))

variable {pattern text a b w junk buf : List Byte} {p : Nat} {input : Input}

section

variable (free : newline ∉ a)
include free

theorem lines_cons (b : List Byte) : lines (a ++ newline :: b) = a :: lines b := by
  rw [lines, List.splitOn_append_cons_self_of_not_mem free,
    List.dropLast_cons_of_ne_nil (List.splitOn_ne_nil _ _), lines]

theorem lines_part : lines a = [] := by
  rw [lines, List.splitOn_eq_singleton free]
  rfl

theorem lastPart_cons (b : List Byte) : lastPart (a ++ newline :: b) = lastPart b := by
  rw [lastPart, List.splitOn_append_cons_self_of_not_mem free, lastPart,
    List.getLastD_cons, List.getLastD_eq_getLast?, List.getLastD_eq_getLast?,
    List.getLast?_eq_some_getLast (List.splitOn_ne_nil _ _)]
  rfl

theorem lastPart_part : lastPart a = a := by
  rw [lastPart, List.splitOn_eq_singleton free]
  rfl

end

theorem line_cases (motive : List Byte → Prop) (part : ∀ a, newline ∉ a → motive a)
    (line : ∀ a b, newline ∉ a → motive b → motive (a ++ newline :: b)) (text : List Byte) :
    motive text := by
  by_cases ends : newline ∈ text
  · obtain ⟨a, b, split, free⟩ := List.eq_append_cons_of_mem ends
    have shorter : b.length < text.length := by
      rw [split, length_append, length_cons]
      omega
    rw [split]
    exact line a b free (line_cases motive part line b)
  · exact part text ends
termination_by text.length

theorem newline_lastPart (text : List Byte) : newline ∉ lastPart text := by
  induction text using line_cases with
  | part a free => rwa [lastPart_part free]
  | line a b free ih => rwa [lastPart_cons free]

theorem lastPart_suffix (text : List Byte) : lastPart text <:+ text := by
  induction text using line_cases with
  | part a free => rw [lastPart_part free]
  | line a b free ih =>
    rw [lastPart_cons free]
    exact ih.trans ⟨a ++ [newline], by simp⟩

theorem splitOn_append (w r : List Byte) :
    (w ++ r).splitOn newline = lines w ++ (lastPart w ++ r).splitOn newline := by
  induction w using line_cases with
  | part a free => rw [lines_part free, lastPart_part free, List.nil_append]
  | line a b free ih =>
    rw [append_assoc, cons_append, List.splitOn_append_cons_self_of_not_mem free, ih,
      lines_cons free, lastPart_cons free, cons_append]

theorem lines_append (w r : List Byte) : lines (w ++ r) = lines w ++ lines (lastPart w ++ r) := by
  rw [lines, splitOn_append, List.dropLast_append_of_ne_nil (List.splitOn_ne_nil _ _), ← lines]

theorem wanted_append (pattern w r : List Byte) :
    wanted pattern (w ++ r) = wanted pattern w ++ wanted pattern (lastPart w ++ r) := by
  rw [wanted, lines_append, List.filter_append, List.map_append, wanted, wanted]

theorem wanted_cons (free : newline ∉ a) (b : List Byte) : wanted pattern (a ++ newline :: b) =
    (if matchText pattern a then [a ++ [newline]] else []) ++ wanted pattern b := by
  rw [wanted, lines_cons free, List.filter_cons, wanted]
  split <;> rfl

theorem wanted_part (free : newline ∉ a) : wanted pattern a = [] := by
  rw [wanted, lines_part free]
  rfl

theorem Short.length_le (short : Short (a ++ b)) (free : newline ∉ a) : a.length ≤ 1022 := by
  induction b using line_cases with
  | part b free' =>
    have line := short (a ++ b) (by
      rw [List.splitOn_eq_singleton]
      · exact List.mem_singleton_self _
      · exact fun member => (mem_append.mp member).elim free free')
    rw [length_append] at line
    omega
  | line b c free' _ =>
    have line := short (a ++ b) (by
      rw [← append_assoc, List.splitOn_append_cons_self_of_not_mem]
      · exact mem_cons_self
      · exact fun member => (mem_append.mp member).elim free free')
    rw [length_append] at line
    omega

theorem Short.later (short : Short (w ++ b)) : Short (lastPart w ++ b) := by
  intro line member
  rw [Short, splitOn_append] at short
  exact short line (List.mem_append_right _ member)

theorem strchr_line (free : newline ∉ a) (text : 0 ∉ a) :
    strchr newline (a ++ newline :: b) = some a.length := by
  induction a with
  | nil => rfl
  | cons x a ih =>
    rw [mem_cons, not_or] at free text
    rw [cons_append, strchr, if_neg (Ne.symm text.1), if_neg (Ne.symm free.1),
      ih free.2 text.2]
    rfl

theorem strchr_part (free : newline ∉ a) (text : 0 ∉ a) : strchr newline (a ++ 0 :: b) = none := by
  induction a with
  | nil => rfl
  | cons x a ih =>
    rw [mem_cons, not_or] at free text
    rw [cons_append, strchr, if_neg (Ne.symm text.1), if_neg (Ne.symm free.1),
      ih free.2 text.2]
    rfl

theorem stringAt_eq (text : 0 ∉ a) (here : buf.drop p = a ++ 0 :: b) : stringAt buf p = a := by
  have all : ∀ x ∈ a, decide (x ≠ 0) = true := fun x member =>
    decide_eq_true fun zero => text (zero ▸ member)
  rw [stringAt, here, List.takeWhile_append_of_pos all, List.takeWhile_cons_of_neg (by decide),
    append_nil]

theorem drop_set {x y : Byte} (here : buf.drop p = a ++ x :: b) :
    (buf.set (p + a.length) y).drop p = a ++ y :: b := by
  rw [List.drop_set, if_neg (by omega), here, Nat.add_sub_cancel_left,
    List.set_append_right _ _ (Nat.le_refl _), Nat.sub_self, List.set_cons_zero]

theorem drop_line {x : Byte} (here : buf.drop p = a ++ x :: b) :
    buf.drop (p + a.length + 1) = b := by
  rw [Nat.add_assoc, ← List.drop_drop, here, ← List.drop_drop, List.drop_left, List.drop_one,
    List.tail_cons]

theorem scan_eq {turns : Nat} {written : List (List Byte)} (here : buf.drop p = w ++ 0 :: junk)
    (text : 0 ∉ w) (enough : w.length < turns) :
    ∃ p' buf', scan pattern turns buf p written = .ok (p', buf', written ++ wanted pattern w) ∧
      buf'.drop p' = lastPart w ++ 0 :: junk ∧ p' + (lastPart w).length = p + w.length ∧
      buf'.length = buf.length := by
  induction w using line_cases generalizing buf p turns written with
  | part w free =>
    obtain _ | turns := turns
    · omega
    rw [scan, here, strchr_part free text, wanted_part free, lastPart_part free, append_nil]
    exact ⟨p, buf, rfl, here, rfl, rfl⟩
  | line a b free ih =>
    obtain _ | turns := turns
    · omega
    have textA : 0 ∉ a := fun member => text (List.mem_append_left _ member)
    have textB : 0 ∉ b := fun member =>
      text (List.mem_append_right _ (mem_cons_of_mem _ member))
    rw [append_assoc, cons_append] at here
    rw [length_append, length_cons] at enough
    have ended := drop_set (y := 0) here
    have restored := drop_set (y := newline) ended
    rw [scan, here, strchr_line free textA]
    dsimp only
    rw [stringAt_eq textA ended, wanted_cons free, lastPart_cons free, length_append,
      length_cons]
    by_cases found : matchText pattern a = true
    · rw [if_pos found, if_pos found]
      have line : (((buf.set (p + a.length) 0).set (p + a.length) newline).drop p).take
          (p + a.length + 1 - p) = a ++ [newline] := by
        rw [restored, Nat.add_assoc, Nat.add_sub_cancel_left, List.take_length_add_append]
        rfl
      rw [line]
      obtain ⟨p', buf', ran, rest, place, length⟩ :=
        @ih _ _ turns (written ++ [a ++ [newline]]) (drop_line restored) textB (by omega)
      refine ⟨p', buf', by rw [ran, append_assoc], rest, by omega, ?_⟩
      rw [length, length_set, length_set]
    · rw [if_neg found, if_neg found]
      obtain ⟨p', buf', ran, rest, place, length⟩ :=
        @ih _ _ turns written (drop_line ended) textB (by omega)
      refine ⟨p', buf', ran, rest, by omega, ?_⟩
      rw [length, length_set]

structure Reads (n : Nat) (input : Input) (bytes : List Byte) (rest : Input) : Prop where
  some : bytes ≠ []
  fits : bytes.length ≤ n
  text : input.flatten = bytes ++ rest.flatten
  later : ∀ piece ∈ rest, piece ≠ []

theorem read_piece {n : Nat} {piece : List Byte} {rest : Input}
    (some : ∀ p ∈ piece :: rest, p ≠ []) (room : 0 < n) :
    Reads n (piece :: rest) (read n (piece :: rest)).1 (read n (piece :: rest)).2 := by
  obtain ⟨filled, later⟩ := List.forall_mem_cons.mp some
  rw [read]
  by_cases small : piece.length ≤ n
  · rw [if_pos small]
    exact ⟨filled, small, flatten_cons, later⟩
  · rw [if_neg small]
    have length : (piece.take n).length = n := List.length_take_of_le (by omega)
    refine ⟨fun none => ?_, length.le, ?_, ?_⟩
    · have zero := congrArg List.length none
      rw [length, List.length_nil] at zero
      omega
    · rw [flatten_cons, flatten_cons, ← append_assoc, List.take_append_drop]
    · refine List.forall_mem_cons.mpr ⟨fun none => ?_, later⟩
      have length := congrArg List.length none
      rw [length_drop, List.length_nil] at length
      omega

theorem fill_eq (bytes : List Byte) (here : buf.take a.length = a) (length : buf.length = bufSize)
    (fits : a.length + bytes.length < bufSize) : ∃ junk,
    (buf.take a.length ++ bytes ++ buf.drop (a.length + bytes.length)).set
      (a.length + bytes.length) 0 = (a ++ bytes) ++ 0 :: junk ∧
      ((a ++ bytes) ++ 0 :: junk).length = bufSize := by
  refine ⟨buf.drop (a.length + bytes.length + 1), ?_, ?_⟩
  · rw [here, List.drop_eq_getElem_cons (length ▸ fits),
      List.set_append_right _ _ (length_append ▸ Nat.le_refl _), length_append,
      Nat.sub_self, List.set_cons_zero]
  · rw [length_append, length_append, length_cons, length_drop, length]
    omega

theorem take_moved (here : buf.drop p = a ++ b) (n : Nat) :
    (((buf.drop p).take a.length) ++ buf.drop n).take a.length = a := by
  rw [here, take_left, take_left]

/-- What `grep` writes for a part of a line in the buffer and the bytes of the calls of `read`
behind it. -/
def found (pattern : List Byte) : List Byte → List (List Byte) → List (List Byte)
  | _, [] => []
  | a, c :: cs => wanted pattern (a ++ c) ++ found pattern (carried a c) cs

theorem carried_ends {bytes : List Byte} (ends : newline ∈ bytes) (a : List Byte) :
    carried a bytes = lastPart (a ++ bytes) :=
  if_pos (List.contains_iff_mem.mpr ends)

theorem carried_part {bytes : List Byte} (part : newline ∉ bytes) (a : List Byte) :
    carried a bytes = [] :=
  if_neg fun ends => part (List.contains_iff_mem.mp ends)

theorem newline_carried (a bytes : List Byte) : newline ∉ carried a bytes := by
  rw [carried]
  split
  · exact newline_lastPart _
  · exact List.not_mem_nil

theorem carried_subset (a bytes : List Byte) : carried a bytes ⊆ a ++ bytes := by
  rw [carried]
  split
  · exact (lastPart_suffix _).subset
  · exact List.nil_subset _

theorem Short.dropped (short : Short (a ++ b)) (free : newline ∉ a) : Short b := by
  intro line member
  induction b using line_cases with
  | part b free' =>
    rw [List.splitOn_eq_singleton free', List.mem_singleton] at member
    have whole : (a ++ b).length ≤ 1022 := Short.length_le (b := []) (by rwa [append_nil])
      fun inside => (mem_append.mp inside).elim free free'
    rw [length_append] at whole
    rw [member]
    omega
  | line b c free' _ =>
    have both : newline ∉ a ++ b := fun inside => (mem_append.mp inside).elim free free'
    rw [← append_assoc, Short, List.splitOn_append_cons_self_of_not_mem both] at short
    rw [List.splitOn_append_cons_self_of_not_mem free'] at member
    rcases mem_cons.mp member with first | later
    · have whole := short (a ++ b) mem_cons_self
      rw [length_append] at whole
      rw [first]
      omega
    · exact short line (mem_cons_of_mem _ later)

theorem Short.carried (short : Short (a ++ w ++ b)) (free : newline ∉ a) :
    Short (carried a w ++ b) := by
  by_cases ends : newline ∈ w
  · rw [carried_ends ends]
    exact short.later
  · rw [carried_part ends]
    exact short.dropped fun member => (mem_append.mp member).elim free ends

theorem loop_eq {turns : Nat} {written : List (List Byte)} (here : buf.take a.length = a)
    (length : buf.length = bufSize) (free : newline ∉ a) (text : 0 ∉ a ++ input.flatten)
    (short : Short (a ++ input.flatten)) (some : ∀ piece ∈ input, piece ≠ [])
    (enough : input.flatten.length < turns) :
    loop pattern turns buf a.length input written =
      .ok (written ++ found pattern a (reads turns a input)) := by
  induction turns generalizing buf a input written with
  | zero => omega
  | succ turns ih =>
    have small := short.length_le free
    have size : bufSize = 1024 := rfl
    rw [loop, reads]
    cases input with
    | nil => exact congrArg Except.ok (append_nil written).symm
    | cons piece rest =>
      have one := read_piece some (show 0 < bufSize - a.length - 1 by omega)
      generalize read (bufSize - a.length - 1) (piece :: rest) = result at one ⊢
      obtain ⟨bytes, rest⟩ := result
      obtain ⟨some, fits, split, later⟩ := one
      dsimp only at some fits split later ⊢
      have more : 0 < bytes.length := List.length_pos_iff.mpr some
      rw [split, ← append_assoc] at text short
      rw [split, length_append] at enough
      rw [if_neg some, if_neg some, found, ← append_assoc]
      obtain ⟨junk, filled, full⟩ := fill_eq bytes here length (by omega)
      have textW : 0 ∉ a ++ bytes := fun member => text (List.mem_append_left _ member)
      have textC : 0 ∉ carried a bytes ++ rest.flatten := fun member =>
        text (mem_append.mpr ((mem_append.mp member).imp
          (fun inside => carried_subset a bytes inside) id))
      have next := fun {buf'} here' length' => @ih (carried a bytes) buf' rest
        (written ++ wanted pattern (a ++ bytes)) here' length' (newline_carried a bytes) textC
        (short.carried free) later (by omega)
      obtain ⟨p, buf', ran, left, place, length'⟩ :=
        @scan_eq pattern (a ++ bytes) junk _ 0 bufSize written List.drop_zero textW
          (by rw [length_append]; omega)
      rw [filled, ran]
      dsimp only [bind, Except.bind]
      rw [length_append, Nat.zero_add] at place
      by_cases ends : newline ∈ bytes
      · have ends' : newline ∈ a ++ bytes := List.mem_append_right _ ends
        have passed : p ≠ 0 := by
          intro zero
          have same := (lastPart_suffix (a ++ bytes)).eq_of_length (by
            rw [length_append]
            omega)
          exact newline_lastPart (a ++ bytes) (by rwa [same])
        have left' : a.length + bytes.length - p = (lastPart (a ++ bytes)).length := by omega
        have moved : ((buf'.drop p).take (lastPart (a ++ bytes)).length ++
            buf'.drop (lastPart (a ++ bytes)).length).length = bufSize := by
          rw [left, take_left, length_append, length_drop, length', full]
          omega
        rw [carried_ends ends] at next
        rw [if_neg passed, if_pos (by omega), left', next (take_moved left _) moved,
          carried_ends ends]
      · -- No line ended, so `p == buf` and the part is dropped.
        have free' : newline ∉ a ++ bytes := fun member =>
          (mem_append.mp member).elim free ends
        have stays : p = 0 := by
          rw [lastPart_part free', length_append] at place
          omega
        rw [carried_part ends] at next
        rw [if_pos stays, if_neg (Nat.lt_irrefl 0), carried_part ends]
        exact next List.take_zero (length'.trans full)

theorem flatten_reads {turns : Nat} (free : newline ∉ a)
    (short : Short (a ++ input.flatten)) (some : ∀ piece ∈ input, piece ≠ [])
    (enough : input.flatten.length < turns) :
    (reads turns a input).flatten = input.flatten ∧ ∀ c ∈ reads turns a input, c ≠ [] := by
  induction turns generalizing a input with
  | zero => omega
  | succ turns ih =>
    have small := short.length_le free
    have size : bufSize = 1024 := rfl
    rw [reads]
    cases input with
    | nil => exact ⟨rfl, nofun⟩
    | cons piece rest =>
      have one := read_piece some (show 0 < bufSize - a.length - 1 by omega)
      generalize read (bufSize - a.length - 1) (piece :: rest) = result at one ⊢
      obtain ⟨bytes, rest⟩ := result
      obtain ⟨some, fits, split, later⟩ := one
      dsimp only at some fits split later ⊢
      have more : 0 < bytes.length := List.length_pos_iff.mpr some
      rw [split, ← append_assoc] at short
      rw [split, length_append] at enough
      obtain ⟨flat, full⟩ := ih (newline_carried a bytes) (short.carried free) later (by omega)
      rw [if_neg some, flatten_cons, flat, split]
      exact ⟨rfl, List.forall_mem_cons.mpr ⟨some, full⟩⟩

theorem Unbroken.found_eq {cs : List (List Byte)} (whole : Unbroken cs) (pattern : List Byte)
    (free : newline ∉ a) : found pattern a cs = wanted pattern (a ++ cs.flatten) := by
  induction cs generalizing a with
  | nil => rw [found, List.flatten_nil, append_nil, wanted_part free]
  | cons c cs ih =>
    obtain ⟨first, rest⟩ := List.pairwise_cons.mp whole
    rw [found, ih rest (newline_carried a c), flatten_cons, ← append_assoc,
      wanted_append pattern (a ++ c)]
    by_cases ends : newline ∈ c
    · rw [carried_ends ends]
    · have none : newline ∉ cs.flatten := by
        intro member
        obtain ⟨d, inside, last⟩ := List.mem_flatten.mp member
        exact ends (first d inside last)
      have free' : newline ∉ a ++ c := fun member => (mem_append.mp member).elim free ends
      have all : newline ∉ a ++ c ++ cs.flatten := fun member =>
        (mem_append.mp member).elim free' none
      rw [carried_part ends, lastPart_part free', List.nil_append, wanted_part none,
        wanted_part all]

theorem matchText_nil (text : List Byte) : matchText [] text = true := by
  cases text <;> rfl

theorem length_wanted_part (free : newline ∉ a) (ends : newline ∈ b) :
    (wanted [] (a ++ b)).flatten.length = a.length + (wanted [] b).flatten.length := by
  obtain ⟨line, rest, split, free'⟩ := List.eq_append_cons_of_mem ends
  have both : newline ∉ a ++ line := fun member => (mem_append.mp member).elim free free'
  rw [split, ← append_assoc, wanted_cons both, wanted_cons free', if_pos (matchText_nil _),
    if_pos (matchText_nil _)]
  simp only [List.flatten_append, List.flatten_cons, List.flatten_nil, length_append,
    List.length_nil]
  omega

theorem found_length {cs : List (List Byte)} (some : ∀ c ∈ cs, c ≠ []) (free : newline ∉ a) :
    (found [] a cs).flatten.length ≤ (wanted [] (a ++ cs.flatten)).flatten.length ∧
      ((found [] a cs).flatten.length = (wanted [] (a ++ cs.flatten)).flatten.length →
        Unbroken cs) := by
  induction cs generalizing a with
  | nil =>
    rw [found]
    exact ⟨Nat.zero_le _, fun _ => List.Pairwise.nil⟩
  | cons c cs ih =>
    obtain ⟨filled, later⟩ := List.forall_mem_cons.mp some
    obtain ⟨most, exactly⟩ := ih later (newline_carried a c)
    rw [found, flatten_cons, ← append_assoc, List.flatten_append, length_append]
    by_cases ends : newline ∈ c
    · rw [carried_ends ends] at most exactly ⊢
      rw [wanted_append [] (a ++ c) cs.flatten, List.flatten_append, length_append]
      refine ⟨by omega, fun same => List.pairwise_cons.mpr ⟨fun _ _ _ => ends, ?_⟩⟩
      exact exactly (by omega)
    · have free' : newline ∉ a ++ c := fun member => (mem_append.mp member).elim free ends
      rw [carried_part ends, List.nil_append] at most exactly
      rw [carried_part ends, wanted_part free', List.flatten_nil, List.length_nil, Nat.zero_add]
      by_cases behind : newline ∈ cs.flatten
      · have lost : 0 < c.length := List.length_pos_iff.mpr filled
        rw [length_wanted_part free' behind, length_append]
        exact ⟨by omega, fun same => by omega⟩
      · rw [wanted_part behind, List.flatten_nil, List.length_nil] at most exactly
        have none : newline ∉ a ++ c ++ cs.flatten := fun member =>
          (mem_append.mp member).elim free' behind
        rw [wanted_part none, List.flatten_nil, List.length_nil]
        refine ⟨most, fun same => List.pairwise_cons.mpr ⟨fun d inside last => ?_, exactly same⟩⟩
        exact absurd (List.mem_flatten.mpr ⟨d, inside, last⟩) behind

/-- `grep` writes the lines that match, in order and as they are, for every pattern exactly when no
`read` without the end of a line comes before one with it. -/
theorem grep_writes (input : Input) (some : ∀ piece ∈ input, piece ≠ [])
    (text : 0 ∉ input.flatten) (short : Short input.flatten) :
    (∀ pattern, grep pattern input = .ok (wanted pattern input.flatten)) ↔
      Unbroken (chunks input) := by
  have enough := Nat.lt_succ_self input.flatten.length
  obtain ⟨flat, filled⟩ := flatten_reads (a := []) List.not_mem_nil short some enough
  have ran : ∀ pattern, grep pattern input = .ok (found pattern [] (chunks input)) := fun _ =>
    loop_eq (a := []) rfl List.length_replicate List.not_mem_nil text short some enough
  refine ⟨fun right => ?_, fun whole pattern => ?_⟩
  · have same := Except.ok.inj ((ran []).symm.trans (right []))
    refine (found_length filled List.not_mem_nil).2 ?_
    rw [List.nil_append, flat]
    exact congrArg (fun out => out.flatten.length) same
  · rw [ran, whole.found_eq pattern List.not_mem_nil, List.nil_append, chunks, flat]

/-- Two lines of which the second one matches. The first one arrives with the beginning of the
second one. -/
def twoLines : Input := [[0x61, newline, 0x63], [0x62, newline]]

/-- `grep_writes` at two lines. -/
theorem grep_writes_two : grep [0x62] twoLines = .ok [[0x63, 0x62, newline]] :=
  (grep_writes twoLines (by decide) (by decide) (by decide)).mpr (by decide) [0x62]

def brokenLine : Input := [[0x61], [0x62, newline]]

/-- The first piece of a line is lost when it does not bring its end, so the line is not found
and a line that is not in the text is. -/
theorem grep_drops :
    wanted [0x61] brokenLine.flatten = [[0x61, 0x62, newline]] ∧ grep [0x61] brokenLine = .ok [] ∧
      wanted [caret, 0x62] brokenLine.flatten = [] ∧
      grep [caret, 0x62] brokenLine = .ok [[0x62, newline]] := by
  decide +kernel

end Grep

end Xv6
