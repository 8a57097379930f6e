import Xv6.Library.Bytes
import Xv6.Library.Run
import Xv6.Library.Tiling
import Xv6.Param

/-!
# The user heap

`umalloc.c`: the allocator that user programs are linked with. The memory of the process is an
array of bytes that the headers of the blocks are stored in, so what a program writes to its
blocks is written next to them. `sbrk` is what the allocator sees of the system call: it fails,
or it returns the old end of the process and moves the end. What a page holds when it is new is
left open.

The system performs the calls of a program in order: `malloc`, `free` of what `malloc` returned,
calls of `sbrk` for other purposes, and stores anywhere but in memory that belongs to the
allocator. It records the pointers that are in use and the memory that the allocator obtained.
-/

namespace Xv6

open Bytes (Byte load store)
open Tiling (Extent)

def headerSize : Word := 8

structure Heap where
  memory : Nat → Byte
  base : Word
  freep : Word
  sz : Word

namespace Heap

def ptr (h : Heap) (p : Word) : Word := load h.memory p.toNat

def size (h : Heap) (p : Word) : Word := load h.memory (p.toNat + 4)

def setPtr (h : Heap) (p q : Word) : Heap := { h with memory := store h.memory p.toNat q }

def setSize (h : Heap) (p n : Word) : Heap := { h with memory := store h.memory (p.toNat + 4) n }

def plus (p n : Word) : Word := p + n * headerSize

/-- Turns that suffice for a loop over the blocks: twice as many as there are headers below the
end of memory, and more. -/
def turns : Nat := 2 ^ 30

def place (h : Heap) (bp : Word) : Nat → Word → Except Fault Word
  | 0, _ => .error .diverges
  | turns + 1, p =>
    if p < bp ∧ bp < h.ptr p then .ok p
    else if h.ptr p ≤ p ∧ (p < bp ∨ bp < h.ptr p) then .ok p
    else place h bp turns (h.ptr p)

def joinNext (h : Heap) (p bp : Word) : Heap :=
  if plus bp (h.size bp) = h.ptr p then
    let h := h.setSize bp (h.size bp + h.size (h.ptr p))
    h.setPtr bp (h.ptr (h.ptr p))
  else h.setPtr bp (h.ptr p)

def joinPrevious (h : Heap) (p bp : Word) : Heap :=
  if plus p (h.size p) = bp then
    let h := h.setSize p (h.size p + h.size bp)
    h.setPtr p (h.ptr bp)
  else h.setPtr p bp

def free (h : Heap) (ap : Word) : Except Fault Heap := do
  let bp := ap - headerSize
  let p ← h.place bp turns h.freep
  let h := h.joinNext p bp
  let h := h.joinPrevious p bp
  return { h with freep := p }

/-- `sbrk`: the old end of the process, or `-1` when the new size is zero. That is what `allocuvm`
gives at the top and when the kernel has not enough memory, and `deallocuvm` at the bottom. -/
def sbrk (h : Heap) (enough : Bool) (n : Word) : Word × Heap :=
  let newsz := h.sz + n
  if 0 < n.toInt then
    let sz :=
      if kernbase ≤ newsz then 0 else if newsz < h.sz then h.sz else if enough then newsz else 0
    if sz = 0 then (-1, h) else (h.sz, { h with sz })
  else if n.toInt < 0 then
    -- a sum that wraps is not below the old size
    let sz := if h.sz ≤ newsz then h.sz else newsz
    if sz = 0 then (-1, h) else (h.sz, { h with sz })
  else (h.sz, h)

def moreUnits (nu : Word) : Word := if nu < 4096 then 4096 else nu

def moreBytes (nu : Word) : Word := moreUnits nu * headerSize

def morecore (h : Heap) (enough : Bool) (nu : Word) : Except Fault (Word × Heap) :=
  let (p, h) := h.sbrk enough (moreBytes nu)
  if p = -1 then .ok (0, h)
  else do
    let h := h.setSize p (moreUnits nu)
    let h ← h.free (plus p 1)
    return (h.freep, h)

/-- The part of the loop of `malloc` that takes `nunits` from a block that has as many: all of
it, or its tail. -/
def take (h : Heap) (nunits prevp p : Word) : Word × Heap :=
  if h.size p = nunits then
    let h := h.setPtr prevp (h.ptr p)
    (plus p 1, { h with freep := prevp })
  else
    let h := h.setSize p (h.size p - nunits)
    let p := plus p (h.size p)
    let h := h.setSize p nunits
    (plus p 1, { h with freep := prevp })

def search (enough : Bool) (nunits : Word) : Nat → Heap → Word → Word → Except Fault (Word × Heap)
  | 0, _, _, _ => .error .diverges
  | turns + 1, h, prevp, p =>
    if nunits ≤ h.size p then .ok (h.take nunits prevp p)
    else if p = h.freep then do
      let (p, h) ← h.morecore enough nunits
      if p = 0 then return (0, h) else search enough nunits turns h p (h.ptr p)
    else search enough nunits turns h p (h.ptr p)

def initial (h : Heap) : Heap :=
  let h := h.setPtr h.base h.base
  let h := { h with freep := h.base }
  h.setSize h.base 0

def units (nbytes : Word) : Word := (nbytes + headerSize - 1) / headerSize + 1

def malloc (h : Heap) (enough : Bool) (nbytes : Word) : Except Fault (Word × Heap) :=
  let h := if h.freep = 0 then h.initial else h
  search enough (units nbytes) turns h h.freep (h.ptr h.freep)

def block (h : Heap) (p : Word) : Extent := ⟨p.toNat, (h.size p).toNat * 8⟩

end Heap

/-- What a program does. `enough` tells whether the kernel has the memory that the call needs. -/
inductive HeapEvent where
  | malloc (nbytes : Word) (enough : Bool)
  | free (ap : Word)
  | sbrk (n : Word) (enough : Bool)
  | write (x : Nat) (byte : Byte)

structure HeapSystem where
  heap : Heap
  live : List (Word × Word)
  granted : List Extent

namespace HeapSystem

def Fits (nbytes : Word) : Prop := ((nbytes.toNat + 7) / 8 + 1) * 8 < 2 ^ 31

instance (nbytes : Word) : Decidable (Fits nbytes) :=
  inferInstanceAs (Decidable (((nbytes.toNat + 7) / 8 + 1) * 8 < 2 ^ 31))

/-- The byte is the program's: it was given out by `malloc`, or it is no memory of the
allocator. -/
def Writable (m : HeapSystem) (x : Nat) : Prop :=
  (∃ use ∈ m.live, use.1.toNat ≤ x ∧ x < use.1.toNat + use.2.toNat) ∨
    ((∀ region ∈ m.granted, ¬ region.Has x) ∧ ¬ (Extent.mk m.heap.base.toNat 8).Has x)

instance (m : HeapSystem) (x : Nat) : Decidable (m.Writable x) :=
  inferInstanceAs (Decidable (_ ∨ _))

/-- What a program may do: requests that fit, `free` of pointers in use, `sbrk` upwards, and
stores to its own memory. -/
def Allows (m : HeapSystem) : HeapEvent → Prop
  | .malloc nbytes _ => Fits nbytes
  | .free ap => ∃ use ∈ m.live, use.1 = ap
  | .sbrk n _ => 0 < n.toInt
  | .write x _ => m.Writable x

instance (m : HeapSystem) (event : HeapEvent) : Decidable (m.Allows event) :=
  match event with
  | .malloc nbytes _ => inferInstanceAs (Decidable (Fits nbytes))
  | .free ap => inferInstanceAs (Decidable (∃ use ∈ m.live, use.1 = ap))
  | .sbrk n _ => inferInstanceAs (Decidable (0 < n.toInt))
  | .write x _ => inferInstanceAs (Decidable (m.Writable x))

def perform (m : HeapSystem) : HeapEvent → Except Fault HeapSystem
  | .malloc nbytes enough => do
    let (ap, heap) ← m.heap.malloc enough nbytes
    return {
      heap := heap
      live := if ap = 0 then m.live else (ap, nbytes) :: m.live
      granted :=
        if heap.sz = m.heap.sz then m.granted
        else ⟨m.heap.sz.toNat, (heap.sz - m.heap.sz).toNat⟩ :: m.granted }
  | .free ap => do
    let heap ← m.heap.free ap
    return { m with heap := heap, live := m.live.eraseP fun use => use.1 = ap }
  | .sbrk n enough => .ok { m with heap := (m.heap.sbrk enough n).2 }
  | .write x byte =>
    .ok { m with heap := { m.heap with memory := Function.update m.heap.memory x byte } }

def step (m : HeapSystem) (event : HeapEvent) : Except Fault HeapSystem :=
  if m.Allows event then m.perform event else .error .disabled

end HeapSystem

structure LoadedProgram where
  memory : Nat → Byte
  base : Word
  sz : Word
  base_pos : 0 < base.toNat
  base_lt : base.toNat + 8 ≤ sz.toNat
  sz_lt : sz < kernbase

def LoadedProgram.boot (program : LoadedProgram) : HeapSystem where
  heap := { memory := program.memory, base := program.base, freep := 0, sz := program.sz }
  live := []
  granted := []

end Xv6
