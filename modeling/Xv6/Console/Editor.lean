import Xv6.Console.Machine
import Xv6.Library.Run

/-!
# The console is a line editor

What the console commits is what a plain line editor makes of the typed characters. The editor
keeps the committed characters, the line that is being typed and the number of characters taken
so far; it has no buffer and no indices. The input buffer shows an editor when its ring holds
the committed characters that are not yet taken, followed by the line, and its write index
stands between the two. The console follows the editor that its own history defines.
-/

namespace Xv6

structure Editor where
  committed : List UInt8
  line : List UInt8
  taken : Nat

namespace Editor

def start : Editor := { committed := [], line := [], taken := 0 }

def unread (ed : Editor) : Nat := ed.committed.length - ed.taken + ed.line.length

/-- Enter an ordinary character, if there is room. A newline, an end of file and the last
character that fits commit the line. -/
def enter (ed : Editor) (c : UInt8) : Editor :=
  if c ≠ 0 ∧ ed.unread < inputBuf then
    if entered c = newline ∨ entered c = ctrlD ∨ ed.unread + 1 = inputBuf then
      { ed with committed := ed.committed ++ (ed.line ++ [entered c]), line := [] }
    else { ed with line := ed.line ++ [entered c] }
  else ed

def key (ed : Editor) (c : UInt8) : Editor :=
  if c = ctrlP then ed
  else if c = ctrlU then { ed with line := [] }
  else if c = ctrlH ∨ c = delete then { ed with line := ed.line.dropLast }
  else ed.enter c

def take (ed : Editor) : Editor := { ed with taken := ed.taken + 1 }

variable {P : Type}

def event (ed : Editor) : ConsoleEvent P → Editor
  | .typed c => ed.key c
  | .stored _ _ | .endOfFile _ => ed.take

def edit (history : List (ConsoleEvent P)) : Editor := history.foldl event start

@[simp]
theorem edit_concat (history : List (ConsoleEvent P)) (last : ConsoleEvent P) :
    edit (history ++ [last]) = (edit history).event last := by
  simp [edit]

end Editor

def delivered {P : Type} (history : List (ConsoleEvent P)) : List UInt8 :=
  history.filterMap fun
    | .typed _ => none
    | .stored _ c => some c
    | .endOfFile _ => some ctrlD

namespace Input

def ring (i : Input) : RingBuffer.Ring UInt8 32 inputBuf where
  cells := i.buf
  taken := i.r
  put := i.e

structure Shows (i : Input) (ed : Editor) : Prop where
  contents : i.ring.contents = ed.committed.drop ed.taken ++ ed.line
  mark : (i.w - i.r).toNat = ed.committed.length - ed.taken
  taken : ed.taken ≤ ed.committed.length
  fits : i.ring.count ≤ inputBuf
  plain : newline ∉ ed.line

theorem inputBuf_dvd : inputBuf ∣ 2 ^ 32 := by decide

namespace Shows

variable {i : Input} {ed : Editor}

section

variable (shows : i.Shows ed)
include shows

theorem count_eq : i.ring.count = ed.unread := by
  have lengths := congrArg List.length shows.contents
  simp only [RingBuffer.Ring.contents, List.length_map, List.length_range, List.length_append,
    List.length_drop] at lengths
  exact lengths

theorem line_length : (i.e - i.w).toNat = ed.line.length := by
  have whole : (i.e - i.r).toNat = ed.unread := shows.count_eq
  have mark := shows.mark
  have fits : (i.e - i.r).toNat ≤ 128 := shows.fits
  unfold Editor.unread at whole
  bv_omega

theorem line_nil_iff : i.e = i.w ↔ ed.line = [] := by
  have length := shows.line_length
  rw [← List.length_eq_zero_iff, ← length]
  constructor
  · intro same
    rw [same, BitVec.sub_self]
    rfl
  · intro zero
    bv_omega

theorem taken_iff : i.r = i.w ↔ ed.taken = ed.committed.length := by
  have mark := shows.mark
  have taken := shows.taken
  constructor
  · intro same
    rw [same, BitVec.sub_self] at mark
    have zero : (0#32).toNat = 0 := rfl
    omega
  · intro all
    bv_omega

theorem unput {front : List UInt8} {last : UInt8} (line : ed.line = front ++ [last]) :
    i.char (i.e - 1) = last ∧ Shows { i with e := i.e - 1 } { ed with line := front } := by
  have some : 0 < i.ring.count := by
    rw [shows.count_eq, Editor.unread, line, List.length_append, List.length_singleton]
    omega
  have split := shows.contents
  rw [RingBuffer.contents_unput inputBuf_dvd i.ring some, line, ← List.append_assoc] at split
  obtain ⟨rest, back⟩ := List.append_inj' split rfl
  have less := RingBuffer.count_unput i.ring some
  have fits := shows.fits
  refine ⟨List.singleton_inj.mp back, rest, shows.mark, shows.taken, ?_, ?_⟩
  · show i.ring.unput.count ≤ inputBuf
    omega
  · intro member
    apply shows.plain
    rw [line]
    exact List.mem_append_left _ member

theorem killLine : Shows (Input.killLine ed.line.length i) { ed with line := [] } := by
  induction length : ed.line.length generalizing i ed with
  | zero =>
    have empty : ed.line = [] := List.length_eq_zero_iff.mp length
    rw [← empty]
    exact shows
  | succ turns ih =>
    obtain ⟨front, last, line⟩ : ∃ front last, ed.line = front ++ [last] :=
      List.eq_nil_or_concat' ed.line |>.resolve_left (fun empty => by simp [empty] at length)
    obtain ⟨back, shorter⟩ := shows.unput line
    have typed : i.e ≠ i.w := by
      intro same
      rw [shows.line_nil_iff.mp same] at length
      cases length
    have ordinary : i.char (i.e - 1) ≠ newline := by
      rw [back]
      intro same
      apply shows.plain
      rw [line, same]
      exact List.mem_append_right _ List.mem_cons_self
    have turn : Input.killLine (turns + 1) i =
        Input.killLine turns { i with e := i.e - 1 } := if_pos ⟨typed, ordinary⟩
    rw [turn]
    have fewer : front.length = turns := by
      rw [line, List.length_append] at length
      simpa using length
    have rest := ih shorter fewer
    exact rest

theorem enter (c : UInt8) : Shows (i.enter c).1 (ed.enter c) := by
  have count := shows.count_eq
  have distance : (i.e - i.r).toNat = ed.unread := count
  unfold Input.enter Editor.enter
  rw [distance]
  split
  case isFalse => exact shows
  case isTrue room =>
    have space : i.ring.count < inputBuf := by
      rw [count]
      exact room.2
    have pushed := RingBuffer.contents_push inputBuf_dvd i.ring (by decide) space (entered c)
    have more := RingBuffer.count_push i.ring (by decide) space (entered c)
    have contents : (i.ring.push (entered c)).contents =
        ed.committed.drop ed.taken ++ (ed.line ++ [entered c]) := by
      rw [pushed, shows.contents, List.append_assoc]
    have full : i.e + 1 = i.r + BitVec.ofNat 32 inputBuf ↔ ed.unread + 1 = inputBuf := by
      have iff := RingBuffer.count_eq_capacity_iff (i.ring.push (entered c)) (by decide)
      rw [more, count] at iff
      exact iff.symm
    have fits : (i.ring.push (entered c)).count ≤ inputBuf := by
      rw [more]
      exact space
    simp only [full]
    split
    case isTrue =>
      refine ⟨?_, ?_, ?_, fits, List.not_mem_nil⟩
      · show (i.ring.push (entered c)).contents = _
        rw [contents, List.drop_append_of_le_length shows.taken, List.append_nil]
      · show (i.ring.push (entered c)).count = _
        rw [more, count]
        have taken := shows.taken
        simp only [Editor.unread, List.length_append, List.length_singleton]
        omega
      · show ed.taken ≤ (ed.committed ++ (ed.line ++ [entered c])).length
        have taken := shows.taken
        rw [List.length_append]
        omega
    case isFalse commits =>
      refine ⟨contents, shows.mark, shows.taken, fits, ?_⟩
      intro member
      rcases List.mem_append.mp member with member | member
      · exact shows.plain member
      · exact commits (.inl (List.mem_singleton.mp member).symm)

theorem key (c : UInt8) : Shows (i.key c).1 (ed.key c) := by
  unfold Input.key Editor.key
  split
  · exact shows
  · split
    · rw [shows.line_length]
      exact shows.killLine
    · split
      · rcases List.eq_nil_or_concat' ed.line with empty | ⟨front, last, line⟩
        · rw [if_neg (not_not_intro (shows.line_nil_iff.mpr empty)), empty, List.dropLast_nil,
            ← empty]
          exact shows
        · have typed : i.e ≠ i.w := by
            intro same
            rw [shows.line_nil_iff.mp same] at line
            simp at line
          rw [if_pos typed, line, List.dropLast_concat]
          exact (shows.unput line).2
      · exact shows.enter c

theorem take (some : i.r ≠ i.w) :
    ed.committed.take (ed.taken + 1) = ed.committed.take ed.taken ++ [i.char i.r] ∧
      Shows { i with r := i.r + 1 } ed.take := by
  have taken := shows.taken
  have more : ed.taken < ed.committed.length := by
    have left := mt shows.taken_iff.mpr some
    omega
  have mark := shows.mark
  have full : 0 < i.ring.count := by
    rw [shows.count_eq, Editor.unread]
    omega
  have popped := RingBuffer.contents_pop inputBuf_dvd i.ring full
  have fewer := RingBuffer.count_pop i.ring full
  have fits := shows.fits
  rw [shows.contents, List.drop_eq_getElem_cons more, List.cons_append] at popped
  obtain ⟨front, rest⟩ := List.cons.inj popped
  constructor
  · rw [List.take_succ_eq_append_getElem more, front]
    rfl
  · refine ⟨rest.symm, ?_, more, ?_, shows.plain⟩
    · show (i.w - (i.r + 1)).toNat = ed.committed.length - (ed.taken + 1)
      bv_omega
    · show i.ring.pop.count ≤ inputBuf
      omega

theorem distances : (i.w - i.r).toNat ≤ (i.e - i.r).toNat ∧ (i.e - i.r).toNat ≤ inputBuf := by
  have whole : (i.e - i.r).toNat = ed.unread := shows.count_eq
  refine ⟨?_, shows.fits⟩
  rw [shows.mark, whole, Editor.unread]
  omega

end

end Shows

theorem killLine_indices (turns : Nat) (i : Input) :
    (killLine turns i).r = i.r ∧ (killLine turns i).w = i.w := by
  induction turns generalizing i with
  | zero => exact ⟨rfl, rfl⟩
  | succ turns ih =>
    unfold killLine
    split
    · exact ih _
    · exact ⟨rfl, rfl⟩

theorem key_indices (i : Input) (c : UInt8) :
    (i.key c).1.r = i.r ∧ ((i.key c).2 = false → (i.key c).1.w = i.w) := by
  unfold key
  split
  · exact ⟨rfl, fun _ => rfl⟩
  · split
    · exact ⟨(killLine_indices _ i).1, fun _ => (killLine_indices _ i).2⟩
    · split
      · show (if i.e ≠ i.w then { i with e := i.e - 1 } else i).r = i.r ∧
          (false = false → (if i.e ≠ i.w then { i with e := i.e - 1 } else i).w = i.w)
        split <;> exact ⟨rfl, fun _ => rfl⟩
      · unfold enter
        split
        · simp only
          split
          · exact ⟨rfl, fun quiet => by cases quiet⟩
          · exact ⟨rfl, fun _ => rfl⟩
        · exact ⟨rfl, fun _ => rfl⟩

end Input

namespace ConsoleSystem

variable {P : Type} [DecidableEq P] {m m' : ConsoleSystem P}

structure Kept (m : ConsoleSystem P) : Prop where
  shows : m.input.Shows (Editor.edit m.history)
  delivered : delivered m.history =
    (Editor.edit m.history).committed.take (Editor.edit m.history).taken
  asleep : ∀ p n target, m.pc p = .asleep n target → m.input.r = m.input.w

theorem wake_ne_asleep (pc : ConsolePc) (n target : Int) : pc.wake ≠ .asleep n target := by
  cases pc <;> simp [ConsolePc.wake]

theorem asleep_setPc {p q : P} {pc : ConsolePc} {n target : Int}
    (awake : ∀ n target, pc ≠ .asleep n target) (asleep : (m.setPc p pc).pc q = .asleep n target) :
    m.pc q = .asleep n target := by
  have moved : Function.update m.pc p pc q = .asleep n target := asleep
  rw [Function.update_apply] at moved
  split at moved
  case isTrue => exact absurd moved (awake n target)
  case isFalse => exact moved

theorem take_key (ed : Editor) (c : UInt8) (taken : ed.taken ≤ ed.committed.length) :
    (ed.key c).committed.take (ed.key c).taken = ed.committed.take ed.taken := by
  unfold Editor.key
  split
  · rfl
  · split
    · rfl
    · split
      · rfl
      · unfold Editor.enter
        split
        · split
          · exact List.take_append_of_le_length taken
          · rfl
        · rfl

namespace Kept

omit [DecidableEq P] in
theorem key (kept : m.Kept) (c : UInt8) : (m.key c).Kept := by
  have indices := m.input.key_indices c
  have shows : (m.input.key c).1.Shows (Editor.edit (m.history ++ [.typed c])) := by
    rw [Editor.edit_concat]
    exact kept.shows.key c
  have prefix_ : Xv6.delivered (m.history ++ [.typed c]) =
      (Editor.edit (m.history ++ [.typed c])).committed.take
        (Editor.edit (m.history ++ [.typed c])).taken := by
    rw [Editor.edit_concat]
    have same := take_key (Editor.edit m.history) c kept.shows.taken
    have typed : Xv6.delivered (m.history ++ [.typed c]) = Xv6.delivered m.history := by
      simp [Xv6.delivered]
    rw [typed, kept.delivered]
    exact same.symm
  unfold ConsoleSystem.key
  simp only
  split
  case isTrue =>
    exact ⟨shows, prefix_, fun p n target asleep => absurd asleep (wake_ne_asleep _ n target)⟩
  case isFalse quiet =>
    refine ⟨shows, prefix_, fun p n target asleep => ?_⟩
    show (m.input.key c).1.r = (m.input.key c).1.w
    rw [indices.1, indices.2 (by simpa using quiet)]
    exact kept.asleep p n target asleep

omit [DecidableEq P] in
theorem interrupt (kept : m.Kept) (typed : List UInt8) :
    (typed.foldl ConsoleSystem.key m).Kept := by
  induction typed generalizing m with
  | nil => exact kept
  | cons c rest ih => exact ih (kept.key c)

omit [DecidableEq P] in
theorem move (kept : m.Kept) (input : m'.input = m.input) (history : m'.history = m.history)
    (asleep : ∀ q n target, m'.pc q = .asleep n target → m.pc q = .asleep n target) : m'.Kept := by
  refine ⟨?_, ?_, fun q n target sleeps => ?_⟩
  · rw [input, history]
    exact kept.shows
  · rw [history]
    exact kept.delivered
  · rw [input]
    exact kept.asleep q n target (asleep q n target sleeps)

omit [DecidableEq P] in
theorem taking (kept : m.Kept) {event : ConsoleEvent P} (some : m.input.r ≠ m.input.w)
    (takes : ∀ ed : Editor, ed.event event = ed.take)
    (recorded : Xv6.delivered (m.history ++ [event]) =
      Xv6.delivered m.history ++ [m.input.char m.input.r])
    (input : m'.input = { m.input with r := m.input.r + 1 })
    (history : m'.history = m.history ++ [event])
    (asleep : ∀ q n target, m'.pc q = .asleep n target → m.pc q = .asleep n target) : m'.Kept := by
  obtain ⟨longer, shows⟩ := kept.shows.take some
  have next : Editor.edit (m.history ++ [event]) = (Editor.edit m.history).take := by
    rw [Editor.edit_concat, takes]
  refine ⟨?_, ?_, fun q n target sleeps => ?_⟩
  · rw [input, history, next]
    exact shows
  · rw [history, recorded, next, kept.delivered]
    exact longer.symm
  · exact absurd (kept.asleep q n target (asleep q n target sleeps)) some

theorem readTurn (kept : m.Kept) (p : P) (n target : Int) : (m.readTurn p n target).Kept := by
  have left : ∀ n target, ConsolePc.outside ≠ .asleep n target := by nofun
  unfold ConsoleSystem.readTurn
  split
  · exact kept.move rfl rfl fun q n target sleeps => asleep_setPc left sleeps
  · split
    case isTrue empty =>
      split
      · exact kept.move rfl rfl fun q n target sleeps => asleep_setPc left sleeps
      · exact ⟨kept.shows, kept.delivered, fun _ _ _ _ => empty⟩
    case isFalse some =>
      simp only
      split
      case isTrue ends =>
        split
        · refine kept.move ?_ rfl fun q n target sleeps => asleep_setPc left sleeps
          show { m.input with r := m.input.r + 1 - 1 } = m.input
          rw [BitVec.add_sub_cancel]
        · refine kept.taking some (fun _ => rfl) ?_ rfl rfl
            fun q n target sleeps => asleep_setPc left sleeps
          rw [ends]
          simp [Xv6.delivered]
      case isFalse =>
        have recorded : Xv6.delivered (m.history ++ [.stored p (m.input.char m.input.r)]) =
            Xv6.delivered m.history ++ [m.input.char m.input.r] := by simp [Xv6.delivered]
        split
        · exact kept.taking some (fun _ => rfl) recorded rfl rfl
            fun q n target sleeps => asleep_setPc left sleeps
        · exact kept.taking some (fun _ => rfl) recorded rfl rfl
            fun q n target sleeps => asleep_setPc (by nofun) sleeps

theorem acquire (kept : m.Kept) {p : P} {pc : ConsolePc} (awake : ∀ n target, pc ≠ .asleep n target)
    (taken : m.acquire p pc = .ok m') : m'.Kept := by
  unfold ConsoleSystem.acquire at taken
  split at taken
  · cases taken
    exact kept.move rfl rfl fun q n target sleeps => asleep_setPc awake sleeps
  · cases taken

theorem step (kept : m.Kept) {action : ConsoleAction P} (taken : m.step action = .ok m') :
    m'.Kept := by
  cases action with
  | interrupt typed =>
    simp only [ConsoleSystem.step] at taken
    split at taken
    · cases taken
      exact kept.interrupt typed
    · cases taken
  | read p n =>
    simp only [ConsoleSystem.step] at taken
    split at taken
    · cases taken
      exact kept.move rfl rfl fun q n target sleeps => asleep_setPc (by nofun) sleeps
    · cases taken
  | kill p =>
    cases taken
    exact kept.move rfl rfl fun q n target sleeps =>
      asleep_setPc (m := { m with killed := Function.update m.killed p true })
        (wake_ne_asleep (m.pc p)) sleeps
  | advance p =>
    simp only [ConsoleSystem.step] at taken
    split at taken
    · exact kept.acquire (by nofun) taken
    · exact kept.acquire (by nofun) taken
    · cases taken
      exact kept.readTurn p _ _
    · cases taken
    · cases taken

end Kept

theorem zeroed_shows : Input.zeroed.Shows Editor.start where
  contents := by decide
  mark := by decide
  taken := le_rfl
  fits := by decide
  plain := List.not_mem_nil

omit [DecidableEq P] in
theorem booted_kept (killed : P → Bool) : (booted killed).Kept where
  shows := zeroed_shows
  delivered := rfl
  asleep := fun _ _ _ asleep => by cases asleep

/-- The console keeps the line discipline. In every state that a run reaches, the indices are in
order and at most `INPUT_BUF` apart; the buffer holds what the line editor has committed and was
not taken, then its line; what readers took, ends of file included, is the committed stream up
to that point; and no reader sleeps while something is there to read. -/
theorem console_line_discipline (killed : P → Bool) (actions : List (ConsoleAction P))
    (m : ConsoleSystem P) (reached : Transition.run step (booted killed) actions = .ok m) :
    (m.input.w - m.input.r).toNat ≤ (m.input.e - m.input.r).toNat ∧
    (m.input.e - m.input.r).toNat ≤ inputBuf ∧
    m.input.ring.contents = (Editor.edit m.history).committed.drop (delivered m.history).length ++
      (Editor.edit m.history).line ∧
    delivered m.history <+: (Editor.edit m.history).committed ∧
    ∀ p n target, m.pc p = .asleep n target → m.input.r = m.input.w := by
  have kept : m.Kept :=
    Transition.run_invariant Kept (fun _ _ _ kept taken => kept.step taken) (booted_kept killed)
      reached
  have length : (delivered m.history).length = (Editor.edit m.history).taken := by
    rw [kept.delivered, List.length_take]
    exact Nat.min_eq_left kept.shows.taken
  refine ⟨kept.shows.distances.1, kept.shows.distances.2, ?_, ?_, kept.asleep⟩
  · rw [length]
    exact kept.shows.contents
  · rw [kept.delivered]
    exact List.take_prefix _ _

/-- A line typed with a correction, read in two calls. -/
theorem console_line_discipline_corrected :
    ∃ m : ConsoleSystem Unit, Transition.run step (booted fun _ => false)
        [.interrupt [0x61, 0x62, ctrlH, 0x63, carriageReturn], .read () 1, .advance (), .advance (),
          .advance (), .read () 5, .advance (), .advance (), .advance ()] = .ok m ∧
      delivered m.history = [0x61, 0x63, newline] ∧
      delivered m.history <+: (Editor.edit m.history).committed := by
  have checked : Transition.ends (fun m : ConsoleSystem Unit =>
      decide (delivered m.history = [0x61, 0x63, newline]))
      (Transition.run step (booted fun _ => false)
        [.interrupt [0x61, 0x62, ctrlH, 0x63, carriageReturn], .read () 1, .advance (), .advance (),
          .advance (), .read () 5, .advance (), .advance (), .advance ()]) = true := by
    decide +kernel
  obtain ⟨m, reached, facts⟩ := Transition.exists_of_ends checked
  exact ⟨m, reached, of_decide_eq_true facts,
    (console_line_discipline (fun _ => false) _ m reached).2.2.2.1⟩

end ConsoleSystem

end Xv6
