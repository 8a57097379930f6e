import Mathlib.Data.List.Basic
import Xv6.Param

/-!
# The parser of the shell

The parsing functions of `sh.c`. A pointer into the command line is the number of characters
before it, and `*ps` is passed in and returned; at the end of the string the character is the
terminator. The loops that skip over characters are written as the length they skip. A node that
`malloc` gives is a value, so its failure is left out, and so are the terminators that
`nulterminate` stores behind the words: a word and a file name are kept as the part of the line
that they span. `redircmd` wraps what is there so far; as `parseexec` goes on filling the command
inside, the wrappers are collected in order and put around it at its end.
-/

namespace Xv6

structure CString where
  chars : List UInt8
  terminated : 0 ∉ chars

def maxargs : Nat := 10

def whitespace : List UInt8 := [0x20, 0x09, 0x0D, 0x0A, 0x0B]

def symbols : List UInt8 := [0x3C, 0x7C, 0x3E, 0x26, 0x3B, 0x28, 0x29]

/-- What `gettoken` returns: zero at the end, the character of a symbol, `'+'` for two of `'>'`,
and `'a'` for a word. -/
inductive TokenKind where
  | eof | bar | lparen | rparen | semi | amp | less | greater | append | word
  deriving DecidableEq, Repr

structure Span where
  start : Nat
  stop : Nat
  deriving DecidableEq, Repr

structure Token where
  kind : TokenKind
  span : Span
  deriving DecidableEq, Repr

structure Redir where
  file : Span
  mode : Word
  fd : Nat
  deriving DecidableEq, Repr

/-- `struct cmd`. -/
inductive Cmd where
  | exec (argv : List Span)
  | redir (cmd : Cmd) (redirection : Redir)
  | pipe (left right : Cmd)
  | list (left right : Cmd)
  | back (cmd : Cmd)
  deriving DecidableEq, Repr

def Cmd.wrap (cmd : Cmd) (redirs : List Redir) : Cmd := redirs.foldl Cmd.redir cmd

/-- `redircmd` in the cases of `parseredirs`: `O_RDONLY`, or `O_WRONLY|O_CREATE`. -/
def redirOf (tok : TokenKind) (file : Span) : Redir :=
  match tok with
  | .less => { file := file, mode := 0, fd := 0 }
  | _ => { file := file, mode := 0x201, fd := 1 }

def TokenKind.ofSymbol (c : UInt8) : Option TokenKind :=
  if c = 0x7C then some .bar
  else if c = 0x28 then some .lparen
  else if c = 0x29 then some .rparen
  else if c = 0x3B then some .semi
  else if c = 0x26 then some .amp
  else if c = 0x3C then some .less
  else if c = 0x3E then some .greater
  else none

def TokenKind.spelling : TokenKind → List UInt8
  | .bar => [0x7C]
  | .lparen => [0x28]
  | .rparen => [0x29]
  | .semi => [0x3B]
  | .amp => [0x26]
  | .less => [0x3C]
  | .greater => [0x3E]
  | .append => [0x3E, 0x3E]
  | .eof | .word => []

def ordinary (c : UInt8) : Bool := !whitespace.contains c && !symbols.contains c

namespace CString

variable (s : CString)

def char (p : Nat) : UInt8 := s.chars.getD p 0

def skip (p : Nat) : Nat := p + ((s.chars.drop p).takeWhile whitespace.contains).length

def skipWord (p : Nat) : Nat := p + ((s.chars.drop p).takeWhile ordinary).length

/-- The switch of `gettoken`: the token that starts at a character that is not blank. -/
def tokenAt (q : Nat) : Token :=
  if s.char q = 0 then ⟨.eof, q, q⟩
  else
    match TokenKind.ofSymbol (s.char q) with
    | some .greater =>
      if s.char (q + 1) = 0x3E then ⟨.append, q, q + 2⟩ else ⟨.greater, q, q + 1⟩
    | some kind => ⟨kind, q, q + 1⟩
    | none => ⟨.word, q, s.skipWord q⟩

def gettoken (p : Nat) : Token × Nat :=
  let t := s.tokenAt (s.skip p)
  (t, s.skip t.span.stop)

/-- `peek`: whether a character of `toks` comes next, and the pointer behind the blanks. -/
def peek (p : Nat) (toks : List UInt8) : Bool × Nat :=
  let q := s.skip p
  (s.char q != 0 && toks.contains (s.char q), q)

def turns (p : Nat) : Nat := s.chars.length - p + 1

def parseredirs : Nat → Nat → Except Fault (List Redir × Nat)
  | 0, _ => .error .diverges
  | turns + 1, p =>
    let (more, p) := s.peek p [0x3C, 0x3E]
    if more then
      let (tok, p) := s.gettoken p
      let (file, p) := s.gettoken p
      if file.kind ≠ .word then .error (.panic "missing file for redirection")
      else do
        let (redirs, p) ← parseredirs turns p
        return (redirOf tok.kind file.span :: redirs, p)
    else .ok ([], p)

/-- The loop of `parseexec` behind its first `parseredirs`, with the words counted so far. -/
def parsewords : Nat → Nat → Nat → Except Fault ((List Span × List Redir) × Nat)
  | 0, _, _ => .error .diverges
  | turns + 1, argc, p =>
    let (ends, p) := s.peek p [0x7C, 0x29, 0x26, 0x3B]
    if ends then .ok (([], []), p)
    else
      let (tok, p) := s.gettoken p
      if tok.kind = .eof then .ok (([], []), p)
      else if tok.kind ≠ .word then .error (.panic "syntax")
      else if maxargs ≤ argc + 1 then .error (.panic "too many args")
      else do
        let (redirs, p) ← s.parseredirs (s.turns p) p
        let ((argv, more), p) ← parsewords turns (argc + 1) p
        return ((tok.span :: argv, redirs ++ more), p)

def parsebacks : Nat → Cmd → Nat → Except Fault (Cmd × Nat)
  | 0, _, _ => .error .diverges
  | turns + 1, cmd, p =>
    let (more, p) := s.peek p [0x26]
    if more then parsebacks turns (.back cmd) (s.gettoken p).2 else .ok (cmd, p)

mutual

def parseline : Nat → Nat → Except Fault (Cmd × Nat)
  | 0, _ => .error .diverges
  | depth + 1, p => do
    let (cmd, p) ← parsepipe depth p
    let (cmd, p) ← s.parsebacks (s.turns p) cmd p
    let (more, p) := s.peek p [0x3B]
    if more then
      let (rest, p) ← parseline depth (s.gettoken p).2
      return (.list cmd rest, p)
    else return (cmd, p)

def parsepipe : Nat → Nat → Except Fault (Cmd × Nat)
  | 0, _ => .error .diverges
  | depth + 1, p => do
    let (cmd, p) ← parseexec depth p
    let (more, p) := s.peek p [0x7C]
    if more then
      let (rest, p) ← parsepipe depth (s.gettoken p).2
      return (.pipe cmd rest, p)
    else return (cmd, p)

def parseexec : Nat → Nat → Except Fault (Cmd × Nat)
  | 0, _ => .error .diverges
  | depth + 1, p =>
    let (block, p) := s.peek p [0x28]
    if block then parseblock depth p
    else do
      let (redirs, p) ← s.parseredirs (s.turns p) p
      let ((argv, more), p) ← s.parsewords (s.turns p) 0 p
      return (Cmd.wrap (.exec argv) (redirs ++ more), p)

def parseblock : Nat → Nat → Except Fault (Cmd × Nat)
  | 0, _ => .error .diverges
  | depth + 1, p =>
    let (opens, p) := s.peek p [0x28]
    if opens then do
      let (cmd, p) ← parseline depth (s.gettoken p).2
      let (closes, p) := s.peek p [0x29]
      if closes then
        let p := (s.gettoken p).2
        let (redirs, p) ← s.parseredirs (s.turns p) p
        return (cmd.wrap redirs, p)
      else .error (.panic "syntax - missing )")
    else .error (.panic "parseblock")

end

/-- `parsecmd`. Each level of nesting takes a character, so the length of the line bounds the
depth of the recursion. -/
def parsecmd : Except Fault Cmd := do
  let (cmd, p) ← s.parseline (4 * s.chars.length + 4) 0
  let (_, p) := s.peek p []
  if p ≠ s.chars.length then .error (.panic "syntax") else return cmd

end CString

end Xv6
