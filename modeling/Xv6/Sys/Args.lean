import Xv6.Library.ByteSpace
import Xv6.Param

/-!
# Arguments of system calls

`syscall.c`: the calls fetch their arguments from the user stack of the current process, and a
pointer argument is checked against the size of its memory. User memory is the address space the
process sees; the checks are in wrapping unsigned arithmetic, as in the source.
-/

namespace Xv6

open ByteSpace (Memory)

structure Caller where
  sz : Word
  esp : Word
  mem : Memory

namespace Caller

variable {u : Caller} {n : Nat} {size i : Word}

def fetchint (u : Caller) (addr : Word) : Option Word :=
  if u.sz ≤ addr ∨ u.sz < addr + 4 then none else some (ByteSpace.word u.mem addr)

def argint (u : Caller) (n : Nat) : Option Word :=
  u.fetchint (u.esp + 4 + 4 * BitVec.ofNat 32 n)

def argptr (u : Caller) (n : Nat) (size : Word) : Option Word := do
  let i ← u.argint n
  if u.sz ≤ i ∨ u.sz < i + size then none else some i

theorem argptr_some (accepted : u.argptr n size = some i) :
    u.argint n = some i ∧ i < u.sz ∧ i + size ≤ u.sz := by
  obtain ⟨fetched, found, checked⟩ := Option.bind_eq_some_iff.mp accepted
  split at checked
  · cases checked
  · rename_i inside
    obtain ⟨start, finish⟩ := not_or.mp inside
    cases checked
    exact ⟨found, BitVec.not_le.mp start, BitVec.not_lt.mp finish⟩

end Caller

end Xv6
