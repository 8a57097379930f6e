import Xv6.Library.Bytes
import Xv6.Library.Program
import Xv6.Vm.Address

/-!
# Physical pages and page tables

`kalloc.c` and `vm.c`. Memory is the physical pages, each an array of words under the kernel
address of the page; a page directory and a page table are pages of entries. The free list is the
list of its pages. Other processors take pages from it and give pages back at any time, so a
`kalloc` may fail whatever this processor has seen of the list: `outages` says which of the coming
calls do. A pointer to an entry is the page it lies in with its index, and a null pointer is `none`.
-/

namespace Xv6

open Bytes (Byte getByte putBytes)

abbrev Page := PtIndex → Word

structure Mem where
  page : Word → Page
  freelist : List Word
  outages : List Bool

abbrev VmM := StateT Mem (Except Fault)

structure PtePtr where
  pgtab : Word
  index : PtIndex

namespace Vm

def setPage (v : Word) (contents : Page) : VmM Unit :=
  modify fun s => { s with page := Function.update s.page v contents }

/-- `kfree`: put a page on the free list. Its contents are overwritten with ones, and its first
word is the pointer to the next free page. -/
def kfree (k : Image) (v : Word) : VmM Unit := do
  if Managed k v then
    let next := (← get).freelist.headD 0
    setPage v fun i => if i = 0 then next else 0x01010101
    modify fun s => { s with freelist := v :: s.freelist }
  else throw (.panic "kfree")

def kalloc : VmM (Option Word) := do
  let s ← get
  match s.outages, s.freelist with
  | true :: outages, _ =>
    set { s with outages }
    return none
  | _, [] =>
    set { s with outages := s.outages.tail }
    return none
  | _, r :: freelist =>
    set { s with freelist, outages := s.outages.tail }
    return some r

def loadEntry (pte : PtePtr) : VmM Word := do return (← get).page pte.pgtab pte.index

def storeEntry (pte : PtePtr) (x : Word) : VmM Unit := do
  setPage pte.pgtab (Function.update ((← get).page pte.pgtab) pte.index x)

/-- `walkpgdir`: the entry of a virtual address. With `alloc`, a page table that is missing is
created. -/
def walkpgdir (pgdir va : Word) (alloc : Bool) : VmM (Option PtePtr) := do
  let pde ← loadEntry ⟨pgdir, pdx va⟩
  if HasFlag pteP pde then return some ⟨p2v (pteAddr pde), ptx va⟩
  else if !alloc then return none
  else match ← kalloc with
    | none => return none
    | some pgtab =>
      setPage pgtab fun _ => 0
      storeEntry ⟨pgdir, pdx va⟩ (v2p pgtab ||| pteP ||| pteW ||| pteU)
      return some ⟨pgtab, ptx va⟩

/-- The loop of `mappages` from page `a` to page `last`. The fuel is the number of pages. -/
def mappagesLoop (pgdir last perm : Word) : Nat → Word → Word → VmM Int
  | 0, _, _ => throw .diverges
  | fuel + 1, a, pa => do
    match ← walkpgdir pgdir a true with
    | none => return -1
    | some pte =>
      if HasFlag pteP (← loadEntry pte) then throw (.panic "remap")
      else
        storeEntry pte (pa ||| perm ||| pteP)
        if a = last then return 0
        else mappagesLoop pgdir last perm fuel (a + pgsize) (pa + pgsize)

/-- `mappages`: map the pages of a range of virtual addresses to physical pages in order. -/
def mappages (pgdir va size pa perm : Word) : VmM Int :=
  let a := pgRoundDown va
  let last := pgRoundDown (va + size - 1)
  mappagesLoop pgdir last perm ((last - a).toNat / 4096 + 1) a pa

structure Kmap where
  virt : Word
  physStart : Word
  physEnd : Word
  perm : Word

def kmap (k : Image) : List Kmap :=
  [⟨kernbase, 0, extmem, pteW⟩, ⟨kernlink, v2p kernlink, v2p k.data, 0⟩,
    ⟨k.data, v2p k.data, physTop, pteW⟩, ⟨devspace, devspace, 0, pteW⟩]

def setupLoop (pgdir : Word) : List Kmap → VmM Bool
  | [] => return true
  | m :: rest => do
    if (← mappages pgdir m.virt (m.physEnd - m.physStart) m.physStart m.perm) < 0 then
      return false
    else setupLoop pgdir rest

def setupkvm (k : Image) : VmM (Option Word) := do
  match ← kalloc with
  | none => return none
  | some pgdir =>
    setPage pgdir fun _ => 0
    if p2v physTop > devspace then throw (.panic "PHYSTOP too high")
    else if ← setupLoop pgdir (kmap k) then return some pgdir
    else return none

def deallocLoop (k : Image) (pgdir oldsz : Word) : Nat → Word → VmM Unit
  | 0, _ => throw .diverges
  | fuel + 1, a => do
    if a < oldsz then
      match ← walkpgdir pgdir a false with
      | none => deallocLoop k pgdir oldsz fuel (a + 1023 * pgsize + pgsize)
      | some pte =>
        let entry ← loadEntry pte
        if HasFlag pteP entry then
          if pteAddr entry = 0 then throw (.panic "kfree")
          else
            kfree k (p2v (pteAddr entry))
            storeEntry pte 0
            deallocLoop k pgdir oldsz fuel (a + pgsize)
        else deallocLoop k pgdir oldsz fuel (a + pgsize)
    else return ()

def deallocuvm (k : Image) (pgdir oldsz newsz : Word) : VmM Word := do
  if newsz ≥ oldsz then return oldsz
  else
    let a := pgRoundUp newsz
    deallocLoop k pgdir oldsz ((oldsz.toNat - a.toNat) / 4096 + 2) a
    return newsz

def allocLoop (k : Image) (pgdir oldsz newsz : Word) : Nat → Word → VmM Word
  | 0, _ => throw .diverges
  | fuel + 1, a => do
    if a < newsz then
      match ← kalloc with
      | none =>
        let _ ← deallocuvm k pgdir newsz oldsz
        return 0
      | some mem =>
        setPage mem fun _ => 0
        let _ ← mappages pgdir a pgsize (v2p mem) (pteW ||| pteU)
        allocLoop k pgdir oldsz newsz fuel (a + pgsize)
    else return newsz

/-- `allocuvm`: allocate user pages to grow a process from `oldsz` to `newsz`; zero on error. -/
def allocuvm (k : Image) (pgdir oldsz newsz : Word) : VmM Word := do
  if newsz ≥ kernbase then return 0
  else if newsz < oldsz then return oldsz
  else
    let a := pgRoundUp oldsz
    allocLoop k pgdir oldsz newsz ((newsz.toNat - a.toNat) / 4096 + 2) a

def freeTables (k : Image) (pgdir : Word) : List PtIndex → VmM Unit
  | [] => return ()
  | i :: rest => do
    let pde ← loadEntry ⟨pgdir, i⟩
    if HasFlag pteP pde then kfree k (p2v (pteAddr pde))
    freeTables k pgdir rest

/-- `freevm`: free a page directory with its page tables and all pages of the user part. -/
def freevm (k : Image) (pgdir : Word) : VmM Unit := do
  if pgdir = 0 then throw (.panic "freevm: no pgdir")
  let _ ← deallocuvm k pgdir kernbase 0
  freeTables k pgdir (List.finRange npentries)
  kfree k pgdir

def clearpteu (pgdir uva : Word) : VmM Unit := do
  match ← walkpgdir pgdir uva false with
  | none => throw (.panic "clearpteu")
  | some pte => storeEntry pte ((← loadEntry pte) &&& ~~~pteU)

def copyLoop (pgdir d sz : Word) : Nat → Word → VmM Bool
  | 0, _ => throw .diverges
  | fuel + 1, i => do
    if i < sz then
      match ← walkpgdir pgdir i false with
      | none => throw (.panic "copyuvm: pte should exist")
      | some pte =>
        let entry ← loadEntry pte
        if HasFlag pteP entry then
          match ← kalloc with
          | none => return false
          | some mem =>
            setPage mem ((← get).page (p2v (pteAddr entry)))
            if (← mappages d i pgsize (v2p mem) (pteFlags entry)) < 0 then return false
            else copyLoop pgdir d sz fuel (i + pgsize)
        else throw (.panic "copyuvm: page not present")
    else return true

def copyuvm (k : Image) (pgdir sz : Word) : VmM (Option Word) := do
  match ← setupkvm k with
  | none => return none
  | some d =>
    if ← copyLoop pgdir d sz (sz.toNat / 4096 + 2) 0 then return some d
    else
      freevm k d
      return none

/-- `uva2ka`: the kernel address of a user page, null if it is not accessible to the user. The
entry is read without a test that there is one. -/
def uva2ka (pgdir uva : Word) : VmM (Option Word) := do
  match ← walkpgdir pgdir uva false with
  | none => throw .nullDeref
  | some pte =>
    let entry ← loadEntry pte
    if ¬ HasFlag pteP entry then return none
    else if ¬ HasFlag pteU entry then return none
    else return some (p2v (pteAddr entry))

/-- The loop of `copyout` with the rest of the source. The fuel is the number of pages. -/
def copyoutLoop (pgdir : Word) : Nat → Word → List Byte → VmM Int
  | 0, _, _ => throw .diverges
  | fuel + 1, va, buf => do
    if buf.length > 0 then
      let va0 := pgRoundDown va
      match ← uva2ka pgdir va0 with
      | none => return -1
      | some pa0 =>
        let n := min (pgsize - (va - va0)).toNat buf.length
        setPage pa0 (putBytes ((← get).page pa0) (va - va0).toNat (buf.take n))
        copyoutLoop pgdir fuel (va0 + pgsize) (buf.drop n)
    else return 0

def copyout (pgdir va : Word) (buf : List Byte) : VmM Int :=
  copyoutLoop pgdir (buf.length / 4096 + 3) va buf

def switchuvm (pgdir : Word) : VmM Unit :=
  if pgdir = 0 then throw (.panic "switchuvm: no pgdir") else return ()

/-- `growproc`: grow or shrink a process of size `sz` by `n` bytes. The result comes with
`proc->sz` after the call. -/
def growproc (k : Image) (pgdir sz n : Word) : VmM (Int × Word) := do
  if 0 < n.toInt then
    let sz' ← allocuvm k pgdir sz (sz + n)
    if sz' = 0 then return (-1, sz)
    else
      switchuvm pgdir
      return (0, sz')
  else if n.toInt < 0 then
    let sz' ← deallocuvm k pgdir sz (sz + n)
    if sz' = 0 then return (-1, sz)
    else
      switchuvm pgdir
      return (0, sz')
  else
    switchuvm pgdir
    return (0, sz)

end Vm

end Xv6
