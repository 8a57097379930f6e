import Xv6.Vm.Paging

/-!
# Program loading

`exec.c` and `loaduvm`. The executable is given by its contents: a regular file is the list of its
bytes, and `readi` copies a part of it. Header fields are read from the bytes in little-endian
order. The argument strings are the bytes before their terminating zeros.
-/

namespace Xv6

open Bytes (Byte putBytes toBytes)

namespace Vm

/-- `readi` on the contents of a regular file: the result and the bytes that are copied. -/
def readi (file : List Byte) (off n : Word) : Int × List Byte :=
  if file.length < off.toNat ∨ off + n < off then (-1, [])
  else
    let n := if file.length < (off + n).toNat then file.length - off.toNat else n.toNat
    (n, (file.drop off.toNat).take n)

def field (bytes : List Byte) (offset : Nat) : Word := Bytes.load (fun n => bytes.getD n 0) offset

structure Elfhdr where
  magic : Word
  entry : Word
  phoff : Word
  phnum : Nat
  deriving DecidableEq

def Elfhdr.ofBytes (bytes : List Byte) : Elfhdr where
  magic := field bytes 0
  entry := field bytes 24
  phoff := field bytes 28
  phnum := (field bytes 44).toNat % 2 ^ 16

structure Proghdr where
  type : Word
  off : Word
  vaddr : Word
  filesz : Word
  memsz : Word
  deriving DecidableEq

def Proghdr.ofBytes (bytes : List Byte) : Proghdr where
  type := field bytes 0
  off := field bytes 4
  vaddr := field bytes 8
  filesz := field bytes 16
  memsz := field bytes 20

def maxArg : Nat := 32

def elfMagic : Word := 0x464C457F

def elfProgLoad : Word := 1

def elfhdrSize : Word := 52

def proghdrSize : Word := 32

def loadLoop (pgdir addr : Word) (file : List Byte) (offset sz : Word) : Nat → Word → VmM Int
  | 0, _ => throw .diverges
  | fuel + 1, i => do
    if i < sz then
      match ← walkpgdir pgdir (addr + i) false with
      | none => throw (.panic "loaduvm: address should exist")
      | some pte =>
        let pa := pteAddr (← loadEntry pte)
        let n := if sz - i < pgsize then sz - i else pgsize
        let (r, bytes) := readi file (offset + i) n
        setPage (p2v pa) (putBytes ((← get).page (p2v pa)) 0 bytes)
        if r = n.toNat then loadLoop pgdir addr file offset sz fuel (i + pgsize)
        else return -1
    else return 0

def loaduvm (pgdir addr : Word) (file : List Byte) (offset sz : Word) : VmM Int :=
  if addr.toNat % 4096 ≠ 0 then throw (.panic "loaduvm: addr must be page aligned")
  else loadLoop pgdir addr file offset sz (sz.toNat / 4096 + 2) 0

/-- The loop of `exec` over the program headers with the size so far; nothing for `goto bad`. -/
def loadSegments (k : Image) (pgdir : Word) (file : List Byte) :
    Nat → Word → Word → VmM (Option Word)
  | 0, _, sz => return some sz
  | count + 1, off, sz => do
    let (r, bytes) := readi file off proghdrSize
    if r ≠ proghdrSize.toNat then return none
    else
      let ph := Proghdr.ofBytes bytes
      if ph.type ≠ elfProgLoad then loadSegments k pgdir file count (off + proghdrSize) sz
      else if ph.memsz < ph.filesz then return none
      else
        let sz ← allocuvm k pgdir sz (ph.vaddr + ph.memsz)
        if sz = 0 then return none
        else if (← loaduvm pgdir ph.vaddr file ph.off ph.filesz) < 0 then return none
        else loadSegments k pgdir file count (off + proghdrSize) sz

/-- The loop of `exec` over the argument strings: the stack pointer and the addresses of the
strings. -/
def pushArgs (pgdir : Word) : List (List Byte) → Word → List Word → VmM (Option (Word × List Word))
  | [], sp, ustack => return some (sp, ustack)
  | arg :: rest, sp, ustack => do
    if maxArg ≤ ustack.length then return none
    else
      let sp := (sp - BitVec.ofNat 32 (arg.length + 1)) &&& ~~~3
      if (← copyout pgdir sp (arg ++ [0])) < 0 then return none
      else pushArgs pgdir rest sp (ustack ++ [sp])

/-- The part of `exec` that copies the arguments and their table to the stack below `sz`; the stack
pointer. -/
def pushStack (pgdir : Word) (argv : List (List Byte)) (sz : Word) : VmM (Option Word) := do
  match ← pushArgs pgdir argv sz [] with
  | none => return none
  | some (sp, ustack) =>
    let argc := BitVec.ofNat 32 ustack.length
    let ustack := [0xFFFFFFFF, argc, sp - (argc + 1) * 4] ++ ustack ++ [0]
    let sp := sp - (3 + argc + 1) * 4
    if (← copyout pgdir sp (ustack.flatMap toBytes)) < 0 then return none
    else return some sp

/-- The part of `exec` that makes the stack behind a program of size `sz`: an inaccessible page and
a page with the arguments; the size and the stack pointer. -/
def makeStack (k : Image) (pgdir : Word) (argv : List (List Byte)) (sz : Word) :
    VmM (Option (Word × Word)) := do
  let sz := pgRoundUp sz
  let sz ← allocuvm k pgdir sz (sz + 2 * pgsize)
  if sz = 0 then return none
  else
    clearpteu pgdir (sz - 2 * pgsize)
    match ← pushStack pgdir argv sz with
    | none => return none
    | some sp => return some (sz, sp)

/-- The part of `exec` that fills a new page directory; the size and the stack pointer. -/
def fillImage (k : Image) (pgdir : Word) (file : List Byte) (elf : Elfhdr)
    (argv : List (List Byte)) : VmM (Option (Word × Word)) := do
  match ← loadSegments k pgdir file elf.phnum elf.phoff 0 with
  | none => return none
  | some sz => makeStack k pgdir argv sz

structure Loaded where
  pgdir : Word
  sz : Word
  eip : Word
  esp : Word

/-- `exec` of a file, if `namei` found one, in a process with page directory `oldpgdir`; nothing
for a result of -1. -/
def exec (k : Image) (oldpgdir : Word) (file : Option (List Byte)) (argv : List (List Byte)) :
    VmM (Option Loaded) := do
  match file with
  | none => return none
  | some file =>
    let (r, bytes) := readi file 0 elfhdrSize
    -- the comparison is one of unsigned numbers
    if BitVec.ofInt 32 r < elfhdrSize then return none
    else
      let elf := Elfhdr.ofBytes bytes
      if elf.magic ≠ elfMagic then return none
      else
        match ← setupkvm k with
        | none => return none
        | some pgdir =>
          match ← fillImage k pgdir file elf argv with
          | none =>
            freevm k pgdir
            return none
          | some (sz, sp) =>
            switchuvm pgdir
            freevm k oldpgdir
            return some ⟨pgdir, sz, elf.entry, sp⟩

end Vm

end Xv6
