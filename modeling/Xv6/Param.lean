import Mathlib.Algebra.GroupWithZero.Nat
import Mathlib.Data.Fintype.Basic

/-!
# Constants and machine words

The constants are those of `param.h`, `fs.h` and `proc.h` for the build the Makefile makes, with
`CS333_SCHEDULER` defined. Words are the 32-bit `int` and `uint` of the kernel; signed readings
go through `BitVec.toInt`. A fault is the way a kernel path ends without returning.
-/

namespace Xv6

abbrev Word := BitVec 32

def nproc : Nat := 64
def size : Nat := 3
def high : Int := 0
/-- `DEFAULTPRIO`: the priority of a new process and of every process after a reset. -/
def defaultPrio : Int := 1
def low : Int := 2
def count : Word := 4500
def userId : Word := 20
def groupId : Word := 10
def pgsize : Word := 4096
def kernbase : Word := 0x80000000
def maxOpBlocks : Nat := 10
def logSize : Nat := maxOpBlocks * 3
def bsize : Nat := 512
def fsSize : Nat := 1000
def ninode : Nat := 50
def ndev : Nat := 10
def nofile : Nat := 16
def nfile : Nat := 100
def rootDev : Word := 1

instance : NeZero nproc := ⟨by decide⟩

instance : NeZero size := ⟨by decide⟩

instance : NeZero ninode := ⟨by decide⟩

instance : NeZero nfile := ⟨by decide⟩

instance : NeZero nofile := ⟨by decide⟩

instance neZeroSixteen : NeZero (16 : Nat) := ⟨by decide⟩

/-- How a kernel path ends without returning. -/
inductive Fault where
  | panic (message : String)
  | nullDeref
  | outOfBounds
  | diverges
  | disabled
  deriving DecidableEq, Repr

end Xv6
