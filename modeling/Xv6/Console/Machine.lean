import Xv6.Library.RingBuffer
import Xv6.Param

/-!
# The console

`consoleintr` and `consoleread` of `console.c`. The interrupt handler holds `cons.lock` while it
takes what the keyboard or the serial line has, so one interrupt is one step. A reader takes the
lock at its call and at the end of `sleep`, and one turn of its loop is a step. Echo and process
listing touch nothing of the input and are left out. The characters typed, the characters that
readers store and the ends of file they take are recorded in order; no step reads the record.
-/

namespace Xv6

def inputBuf : Nat := 128

instance : NeZero inputBuf := ⟨by decide⟩

def ctrlP : UInt8 := 0x10
def ctrlU : UInt8 := 0x15
def ctrlH : UInt8 := 0x08
def delete : UInt8 := 0x7F
def ctrlD : UInt8 := 0x04
def newline : UInt8 := 0x0A
def carriageReturn : UInt8 := 0x0D

def entered (c : UInt8) : UInt8 := if c = carriageReturn then newline else c

structure Input where
  buf : Fin inputBuf → UInt8
  r : Word
  w : Word
  e : Word

namespace Input

def zeroed : Input := { buf := fun _ => 0, r := 0, w := 0, e := 0 }

def char (i : Input) (index : Word) : UInt8 := i.buf (Fin.ofNat inputBuf index.toNat)

/-- The loop of the kill line case. It meets the write index after `e - w` turns at the latest. -/
def killLine : Nat → Input → Input
  | 0, i => i
  | turns + 1, i =>
    if i.e ≠ i.w ∧ i.char (i.e - 1) ≠ newline then killLine turns { i with e := i.e - 1 } else i

def enter (i : Input) (c : UInt8) : Input × Bool :=
  if c ≠ 0 ∧ (i.e - i.r).toNat < inputBuf then
    let c := entered c
    let i := { i with
      buf := Function.update i.buf (Fin.ofNat inputBuf i.e.toNat) c
      e := i.e + 1 }
    if c = newline ∨ c = ctrlD ∨ i.e = i.r + BitVec.ofNat 32 inputBuf then
      ({ i with w := i.e }, true)
    else (i, false)
  else (i, false)

def key (i : Input) (c : UInt8) : Input × Bool :=
  if c = ctrlP then (i, false)
  else if c = ctrlU then (killLine (i.e - i.w).toNat i, false)
  else if c = ctrlH ∨ c = delete then
    (if i.e ≠ i.w then { i with e := i.e - 1 } else i, false)
  else i.enter c

end Input

/-- Where a process is in `consoleread`. -/
inductive ConsolePc where
  | outside
  | call (n : Int)
  | loop (n target : Int)
  | asleep (n target : Int)
  | woken (n target : Int)
  deriving DecidableEq, Repr

/-- What happens at the console. -/
inductive ConsoleEvent (P : Type) where
  | typed (c : UInt8)
  | stored (p : P) (c : UInt8)
  | endOfFile (p : P)
  deriving DecidableEq, Repr

structure ConsoleSystem (P : Type) where
  input : Input
  lock : Option P
  killed : P → Bool
  pc : P → ConsolePc
  history : List (ConsoleEvent P)

/-- Steps of the console. -/
inductive ConsoleAction (P : Type) where
  | interrupt (typed : List UInt8)
  | read (p : P) (n : Int)
  | advance (p : P)
  | kill (p : P)

def ConsolePc.wake : ConsolePc → ConsolePc
  | .asleep n target => .woken n target
  | pc => pc

namespace ConsoleSystem

variable {P : Type} [DecidableEq P]

def booted (killed : P → Bool) : ConsoleSystem P where
  input := .zeroed
  lock := none
  killed := killed
  pc := fun _ => .outside
  history := []

def setPc (m : ConsoleSystem P) (p : P) (pc : ConsolePc) : ConsoleSystem P :=
  { m with pc := Function.update m.pc p pc }

def wakeup (m : ConsoleSystem P) : ConsoleSystem P := { m with pc := fun p => (m.pc p).wake }

def leave (m : ConsoleSystem P) (p : P) : ConsoleSystem P :=
  { m with lock := none }.setPc p .outside

def acquire (m : ConsoleSystem P) (p : P) (pc : ConsolePc) : Except Fault (ConsoleSystem P) :=
  if m.lock = none then .ok ({ m with lock := some p }.setPc p pc) else .error .disabled

def key (m : ConsoleSystem P) (c : UInt8) : ConsoleSystem P :=
  let m' := { m with input := (m.input.key c).1, history := m.history ++ [.typed c] }
  if (m.input.key c).2 then m'.wakeup else m'

def readTurn (m : ConsoleSystem P) (p : P) (n target : Int) : ConsoleSystem P :=
  if n ≤ 0 then m.leave p
  else if m.input.r = m.input.w then
    if m.killed p then m.leave p else { m with lock := none }.setPc p (.asleep n target)
  else
    let c := m.input.char m.input.r
    let input := { m.input with r := m.input.r + 1 }
    if c = ctrlD then
      -- a read that has stored something leaves the end of file for the next one
      if n < target then { m with input := { input with r := input.r - 1 } }.leave p
      else { m with input := input, history := m.history ++ [ConsoleEvent.endOfFile p] }.leave p
    else
      let m := { m with input := input, history := m.history ++ [ConsoleEvent.stored p c] }
      if c = newline then m.leave p else m.setPc p (.loop (n - 1) target)

def kill (m : ConsoleSystem P) (p : P) : ConsoleSystem P :=
  { m with killed := Function.update m.killed p true }.setPc p (m.pc p).wake

def step (m : ConsoleSystem P) : ConsoleAction P → Except Fault (ConsoleSystem P)
  | .interrupt typed => if m.lock = none then .ok (typed.foldl key m) else .error .disabled
  | .read p n => if m.pc p = .outside then .ok (m.setPc p (.call n)) else .error .disabled
  | .kill p => .ok (m.kill p)
  | .advance p =>
    match m.pc p with
    | .call n => m.acquire p (.loop n n)
    | .woken n target => m.acquire p (.loop n target)
    | .loop n target => .ok (m.readTurn p n target)
    | .outside | .asleep _ _ => .error .disabled

end ConsoleSystem

end Xv6
