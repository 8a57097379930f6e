import Xv6.Fs.Filling
import Xv6.Fs.Mkfs
import Xv6.Library.Run

/-!
# Appending to the files of the image

While an inode is in the hands of `iappend`, the volume is that on the image with the inode in
place of the stored one. In it every file holds its bytes in its first blocks, with zeros behind
them; the blocks referred to are those handed out, each once; and the blocks not handed out are
zero. Each round of `iappend` keeps this and adds the bytes it writes, as long as blocks last.
-/

namespace Xv6.Mkfs

open Volume (setDinode addr_setAddr addr ref)
open Function (update update_eq_self update_idem update_of_ne update_self)
open Bytes (Byte putBytes)
open Assignment (Exact)

theorem sb_valid : sb.Valid where
  inodes := by decide
  bitmap := by decide
  data := by decide
  small := by decide
  short := by decide

theorem dataStart_eq : sb.dataStart = nmeta := by decide

theorem sectorOf_eq {sec : Word} (inside : sec.toNat < fsSize) : sectorOf sec = sec := by
  have bound : fsSize = 1000 := rfl
  apply BitVec.eq_of_toNat_eq
  rw [sectorOf, BitVec.toNat_udiv, BitVec.toNat_mul]
  show sec.toNat * 512 % 2 ^ 32 / 512 = sec.toNat
  omega

variable {s s' : Image} {inum : Word} {din : Dinode} {sec : Word}

theorem rsect_ok (inside : sec.toNat < fsSize) : rsect s sec = .ok (s.disk sec) := by
  rw [rsect, sectorOf_eq inside, if_pos inside]

theorem wsect_eq (inside : sec.toNat < fsSize) (buf : Block) :
    wsect s sec buf = { s with disk := update s.disk sec buf } := by
  rw [wsect, sectorOf_eq inside]

theorem iblock_lt (known : inum < sb.ninodes) : (iblock sb inum).toNat < fsSize :=
  lt_trans (sb_valid.iblock_toNat known).2 (by decide)

theorem rinode_ok (known : inum < sb.ninodes) :
    rinode s inum = .ok ((s.disk.volume sb).dinode inum) := by
  rw [rinode, rsect_ok (iblock_lt known), Disk.volume_dinode known]
  rfl

theorem winode_ok (known : inum < sb.ninodes) :
    winode s inum din = .ok { s with disk := s.disk.putDinode sb inum din } := by
  rw [winode, rsect_ok (iblock_lt known)]
  show Except.ok (wsect s (iblock sb inum) _) = _
  rw [wsect_eq (iblock_lt known)]
  rfl

def view (s : Image) (inum : Word) (din : Dinode) : Volume := (s.disk.volume sb).setDinode inum din

section

variable (s inum din)

theorem view_dinode : (view s inum din).dinode inum = din := update_self ..

theorem view_setDinode (din' : Dinode) :
    (view s inum din).setDinode inum din' = view s inum din' := by
  simp only [view, setDinode, update_idem]

theorem view_self : view s inum ((s.disk.volume sb).dinode inum) = s.disk.volume sb := by
  simp only [view, setDinode, update_eq_self]

theorem view_direct (k : Fin (ndirect + 1)) (x : Word) :
    view (takeBlock s) inum { din with addrs := update din.addrs k x } =
      (view s inum din).setAddr inum (.direct k) x := by
  show _ = (view s inum din).setDinode inum
    { (view s inum din).dinode inum with
      addrs := update ((view s inum din).dinode inum).addrs k x }
  rw [view_dinode, view_setDinode]
  rfl

theorem view_wsect (inside : sec.toNat < fsSize) (data : nmeta ≤ sec.toNat) (buf : Block) :
    view (wsect s sec buf) inum din = (view s inum din).setBlock sec buf := by
  rw [wsect_eq inside]
  unfold view
  rw [Disk.volume_data sb_valid (dataStart_eq ▸ data)]
  rfl

theorem view_block (data : nmeta ≤ sec.toNat) : (view s inum din).block sec = s.disk sec :=
  Disk.volume_block (dataStart_eq ▸ data)

end

def Handed (free : Nat) (b : Word) : Prop := nmeta ≤ b.toNat ∧ b.toNat < free

structure Supply (v : Volume) (free : Nat) : Prop where
  exact : Exact v.ref (Handed free)
  clear : ∀ b : Word, free ≤ b.toNat → ∀ j, v.block b j = 0
  start : nmeta ≤ free

variable {v : Volume} {free fbn : Nat} {slot : AddrSlot} {x : Word}

theorem Supply.handed (supply : Supply v free) (live : v.Live inum)
    (some : v.addr inum slot ≠ 0) : Handed free (v.addr inum slot) :=
  supply.exact.in_use (Volume.ref_of_addr live some)

theorem Supply.take (supply : Supply v free) (live : v.Live inum) (next : x.toNat = free)
    (ready : v.Ready inum slot x) (empty : v.addr inum slot = 0) :
    Supply (v.setAddr inum slot x) (free + 1) where
  exact := by
    have start := supply.start
    have some : x ≠ 0 := by
      rintro rfl
      have zero : (0 : Word).toNat = 0 := rfl
      have positive : 0 < nmeta := by decide
      omega
    have fresh : ¬ Handed free x := fun handed => by
      have bound := handed.2
      omega
    refine (Volume.exact_setAddr supply.exact live ready some empty fresh).congr (fun _ => rfl) ?_
    intro b
    unfold Handed
    constructor
    · rintro ⟨low, bound⟩
      by_cases same : b = x
      · exact .inl same
      · refine .inr ⟨low, ?_⟩
        have differ : b.toNat ≠ x.toNat := fun value => same (BitVec.eq_of_toNat_eq value)
        omega
    · rintro (rfl | ⟨low, bound⟩)
      · omega
      · omega
  clear b past j := by
    rw [Volume.block_setAddr x, supply.clear b (by omega) j]
    intro same
    by_cases none : v.addr inum (.direct indirectIndex) = 0
    · have start := supply.start
      have zero : (0 : Word).toNat = 0 := rfl
      rw [← same, none] at past
      omega
    · have bound := (supply.handed live none).2
      rw [same] at bound
      omega
  start := Nat.le_succ_of_le supply.start

structure DataOnly (s s' : Image) : Prop where
  freeinode : s'.freeinode = s.freeinode
  low : ∀ b : Word, b.toNat < nmeta → s'.disk b = s.disk b

theorem DataOnly.refl (s : Image) : DataOnly s s := ⟨rfl, fun _ _ => rfl⟩

theorem DataOnly.takeBlock (s : Image) : DataOnly s (takeBlock s) := ⟨rfl, fun _ _ => rfl⟩

theorem DataOnly.trans {s'' : Image} (first : DataOnly s s') (second : DataOnly s' s'') :
    DataOnly s s'' where
  freeinode := second.freeinode.trans first.freeinode
  low b bound := (second.low b bound).trans (first.low b bound)

theorem DataOnly.wsect (inside : sec.toNat < fsSize) (data : nmeta ≤ sec.toNat) (buf : Block) :
    DataOnly s (wsect s sec buf) := by
  rw [wsect_eq inside]
  refine ⟨rfl, fun b bound => update_of_ne ?_ _ _⟩
  rintro rfl
  omega

def missing (v : Volume) (inum : Word) (fbn : Nat) : Nat :=
  (if ndirect ≤ fbn ∧ v.addr inum (.direct indirectIndex) = 0 then 1 else 0) +
    if v.addr inum (dataSlot fbn) = 0 then 1 else 0

/-- What `blockAt` achieves: the block is there, taken from the free ones when it was missing. -/
structure BlockTaken (s : Image) (inum : Word) (din : Dinode) (fbn : Nat)
    (result : Image × Dinode × Word) : Prop where
  data : DataOnly s result.1
  free : result.1.freeblock.toNat = s.freeblock.toNat + missing (view s inum din) inum fbn
  supply : Supply (view result.1 inum result.2.1) result.1.freeblock.toNat
  filled : Volume.Filled (view s inum din) (view result.1 inum result.2.1) inum fbn
  place : (view result.1 inum result.2.1).addr inum (dataSlot fbn) = result.2.2

theorem takeBlock_free (room : s.freeblock.toNat < fsSize) :
    (takeBlock s).freeblock.toNat = s.freeblock.toNat + 1 := by
  have bound : fsSize = 1000 := rfl
  show (s.freeblock + 1).toNat = _
  rw [BitVec.toNat_add]
  show (s.freeblock.toNat + 1) % 2 ^ 32 = _
  omega

theorem Supply.next_ne (supply : Supply v s.freeblock.toNat) : s.freeblock ≠ 0 := by
  intro zero
  have start := supply.start
  rw [zero] at start
  revert start
  decide

theorem Supply.next_fresh (s : Image) : ¬ Handed s.freeblock.toNat s.freeblock :=
  fun handed => Nat.lt_irrefl _ handed.2

section Reached

variable (supply : Supply (view s inum din) s.freeblock.toNat) (live : (view s inum din).Live inum)
  (reach : ndirect ≤ fbn → (view s inum din).addr inum (.direct indirectIndex) ≠ 0)

include supply reach

theorem BlockTaken.there (some : (view s inum din).addr inum (dataSlot fbn) ≠ 0)
    (place : (view s inum din).addr inum (dataSlot fbn) = x) :
    BlockTaken s inum din fbn (s, din, x) := by
  refine ⟨DataOnly.refl s, ?_, supply, Volume.Filled.refl some, place⟩
  rw [missing, if_neg fun both => reach both.1 both.2, if_neg some]
  rfl

include live

theorem BlockTaken.taken {din' : Dinode} (small : fbn < maxfile)
    (none : (view s inum din).addr inum (dataSlot fbn) = 0)
    (room : s.freeblock.toNat + missing (view s inum din) inum fbn ≤ fsSize)
    (data : DataOnly s s') (free : s'.freeblock = (takeBlock s).freeblock)
    (taken : view s' inum din' = (view s inum din).setAddr inum (dataSlot fbn) s.freeblock) :
    BlockTaken s inum din fbn (s', din', s.freeblock) := by
  have one : missing (view s inum din) inum fbn = 1 := by
    rw [missing, if_neg fun both => reach both.1 both.2, if_pos none]
  rw [one] at room
  have ready : (view s inum din).Ready inum (dataSlot fbn) s.freeblock :=
    Volume.ready_dataSlot _ reach
  have next : s'.freeblock.toNat = s.freeblock.toNat + 1 := by
    rw [free, takeBlock_free (by omega)]
  refine ⟨data, by rw [one, next], ?_, ?_, ?_⟩
  · rw [taken, next]
    exact supply.take live rfl ready none
  · rw [taken]
    exact Volume.filled_setAddr supply.exact live reach small supply.next_ne
      (Supply.next_fresh s) (supply.clear _ (Nat.le_refl _)) none
  · rw [taken, addr_setAddr supply.exact live ready live, if_pos rfl]

end Reached

theorem blockAt_direct (supply : Supply (view s inum din) s.freeblock.toNat)
    (live : (view s inum din).Live inum) (low : fbn < ndirect)
    (room : s.freeblock.toNat + missing (view s inum din) inum fbn ≤ fsSize) :
    ∃ result, blockAt s din fbn = .ok result ∧ BlockTaken s inum din fbn result := by
  have slot : dataSlot fbn = .direct (Fin.ofNat (ndirect + 1) fbn) := if_pos low
  have place : (view s inum din).addr inum (dataSlot fbn) =
      din.addrs (Fin.ofNat (ndirect + 1) fbn) := by
    rw [slot, addr, view_dinode]
  unfold blockAt
  rw [if_pos low]
  by_cases empty : din.addrs (Fin.ofNat (ndirect + 1) fbn) = 0
  · have taken := view_direct s inum din (Fin.ofNat (ndirect + 1) fbn) s.freeblock
    rw [← slot] at taken
    exact ⟨_, if_pos empty, .taken supply live (by omega) (lt_trans low (by decide))
      (place.trans empty) room (.takeBlock s) rfl taken⟩
  · exact ⟨_, if_neg empty, .there supply (by omega) (by rwa [place]) place⟩

theorem addr_indirect (some : din.addrs indirectIndex ≠ 0)
    (data : nmeta ≤ (din.addrs indirectIndex).toNat) (j : Fin blockWords) :
    (view s inum din).addr inum (.indirect j) = s.disk (din.addrs indirectIndex) j := by
  rw [addr, view_dinode, if_neg some, view_block s inum din data]

section

variable (supply : Supply (view s inum din) s.freeblock.toNat) (live : (view s inum din).Live inum)
include supply live

theorem blockAt_indirect (high : ndirect ≤ fbn) (small : fbn < maxfile)
    (there : din.addrs indirectIndex ≠ 0)
    (room : s.freeblock.toNat + missing (view s inum din) inum fbn ≤ fsSize) :
    ∃ result, blockAt s din fbn = .ok result ∧ BlockTaken s inum din fbn result := by
  have slot : dataSlot fbn = .indirect (Fin.ofNat blockWords (fbn - ndirect)) := if_neg (by omega)
  have pointer : (view s inum din).addr inum (.direct indirectIndex) = din.addrs indirectIndex := by
    rw [addr, view_dinode]
  have reach : ndirect ≤ fbn → (view s inum din).addr inum (.direct indirectIndex) ≠ 0 :=
    fun _ => by rwa [pointer]
  have handed : Handed s.freeblock.toNat (din.addrs indirectIndex) :=
    pointer ▸ supply.handed live (reach high)
  have inside : (din.addrs indirectIndex).toNat < fsSize := by
    have bound := handed.2
    omega
  have place : (view s inum din).addr inum (dataSlot fbn) =
      s.disk (din.addrs indirectIndex) (Fin.ofNat blockWords (fbn - ndirect)) := by
    rw [slot, addr_indirect there handed.1]
  unfold blockAt
  rw [if_neg (by omega)]
  simp only [there, if_false]
  rw [rsect_ok inside]
  by_cases empty : s.disk (din.addrs indirectIndex) (Fin.ofNat blockWords (fbn - ndirect)) = 0
  · have taken : view (wsect (takeBlock s) (din.addrs indirectIndex)
        (update (s.disk (din.addrs indirectIndex))
          (Fin.ofNat blockWords (fbn - ndirect)) s.freeblock)) inum din =
        (view s inum din).setAddr inum (dataSlot fbn) s.freeblock := by
      rw [view_wsect _ inum din inside handed.1, slot]
      show (view s inum din).setBlock _ _ = (view s inum din).setBlock
        (((view s inum din).dinode inum).addrs indirectIndex) _
      rw [view_dinode, view_block s inum din handed.1]
    exact ⟨_, if_pos empty, .taken supply live reach small (place.trans empty) room
      ((DataOnly.takeBlock s).trans (DataOnly.wsect inside handed.1 _)) rfl taken⟩
  · exact ⟨_, if_neg empty, .there supply reach (by rwa [place]) place⟩

theorem blockAt_spec (small : fbn < maxfile)
    (room : s.freeblock.toNat + missing (view s inum din) inum fbn ≤ fsSize) :
    ∃ result, blockAt s din fbn = .ok result ∧ BlockTaken s inum din fbn result := by
  by_cases low : fbn < ndirect
  · exact blockAt_direct supply live low room
  have high : ndirect ≤ fbn := Nat.le_of_not_lt low
  by_cases there : din.addrs indirectIndex = 0
  case neg => exact blockAt_indirect supply live high small there room
  -- the indirect block is taken first, and the rest goes on as if it had been there
  let din₁ : Dinode := { din with addrs := update din.addrs indirectIndex s.freeblock }
  have none : (view s inum din).addr inum (.direct indirectIndex) = 0 := by
    rw [addr, view_dinode, there]
  have zero := supply.clear s.freeblock (Nat.le_refl _)
  have ready := Volume.ready_indirect (i := inum) zero none
  have taken : view (takeBlock s) inum din₁ =
      (view s inum din).setAddr inum (.direct indirectIndex) s.freeblock :=
    view_direct s inum din indirectIndex s.freeblock
  have live₁ : (view (takeBlock s) inum din₁).Live inum := by
    rw [taken]
    exact (Volume.live_setAddr _).mpr live
  have there₁ : din₁.addrs indirectIndex ≠ 0 := by
    show update din.addrs indirectIndex s.freeblock indirectIndex ≠ 0
    rw [update_self]
    exact supply.next_ne
  have pointer₁ : (view (takeBlock s) inum din₁).addr inum (.direct indirectIndex) ≠ 0 := by
    rwa [addr, view_dinode]
  have data : (view (takeBlock s) inum din₁).addr inum (dataSlot fbn) =
      (view s inum din).addr inum (dataSlot fbn) := by
    rw [taken, addr_setAddr supply.exact live ready live, if_neg]
    exact fun same => dataSlot_ne fbn (congrArg Prod.snd same)
  have fewer : missing (view s inum din) inum fbn =
      missing (view (takeBlock s) inum din₁) inum fbn + 1 := by
    simp only [missing, none, pointer₁, data, high, and_self, and_false, if_true, if_false]
    omega
  have free := takeBlock_free (s := s) (by omega)
  have supply₁ : Supply (view (takeBlock s) inum din₁) (takeBlock s).freeblock.toNat := by
    rw [taken, free]
    exact supply.take live rfl ready none
  have same : blockAt s din fbn = blockAt (takeBlock s) din₁ fbn := by
    unfold blockAt
    rw [if_neg low, if_neg low]
    simp only [there, there₁, if_true, if_false]
    rfl
  obtain ⟨result, done, block⟩ :=
    blockAt_indirect supply₁ live₁ high small there₁ (by omega)
  have filled : Volume.Filled (view s inum din) (view result.1 inum result.2.1) inum fbn :=
    Volume.Filled.of_indirect supply.exact live zero none high (taken ▸ block.filled)
  refine ⟨result, same.trans done, ?_, ?_, block.supply, filled, block.place⟩
  · exact (DataOnly.takeBlock s).trans block.data
  · rw [block.free, free, fewer]
    omega

end

def need (bytes : Nat) : Nat :=
  blocksFor bytes + if ndirect < blocksFor bytes then 1 else 0

theorem need_mono {bytes bytes' : Nat} (le : bytes ≤ bytes') : need bytes ≤ need bytes' := by
  have blocks : blocksFor bytes ≤ blocksFor bytes' := Nat.div_le_div_right (by omega)
  unfold need
  split <;> split <;> omega

structure Building (v : Volume) (free : Nat) (files : Word → List Byte) : Prop
    extends Supply v free where
  holds : ∀ {i}, v.Live i → v.Holds i (blocksFor (files i).length) (files i)
  fits : ∀ {i}, v.Live i → (files i).length ≤ maxfile * bsize

variable {files : Word → List Byte}

theorem Building.missing_need (build : Building v free files) (live : v.Live inum) {more : Nat}
    (some : 0 < more) (inside : (files inum).length % bsize + more ≤ bsize)
    (small : (files inum).length / bsize < maxfile) :
    missing v inum ((files inum).length / bsize) + need (files inum).length =
      need ((files inum).length + more) := by
  have mapped := (build.holds live).mapped
  generalize (files inum).length = off at *
  have data : v.addr inum (dataSlot (off / bsize)) = 0 ↔ ¬ off / bsize < blocksFor off := by
    rw [← mapped.data (off / bsize) small, not_not]
  have indirect : v.addr inum (.direct indirectIndex) = 0 ↔ ¬ ndirect < blocksFor off := by
    rw [← mapped.indirect, not_not]
  have blocks : blocksFor (off + more) = off / bsize + 1 := by
    simp only [blocksFor, bsize] at *
    omega
  have before : blocksFor off = off / bsize ∨ blocksFor off = off / bsize + 1 := by
    simp only [blocksFor, bsize] at *
    omega
  simp only [missing, need, blocks, data, indirect]
  rcases before with same | one
  · rw [same]
    split <;> split <;> split <;> split <;> omega
  · rw [one]
    split <;> split <;> split <;> omega

theorem Supply.write (supply : Supply v free) (live : v.Live inum)
    (mapped : v.addr inum (dataSlot fbn) ≠ 0) (data : Block) :
    Supply (v.setBlock (v.addr inum (dataSlot fbn)) data) free where
  exact := by
    rw [Volume.ref_setBlock data fun i live' =>
      Volume.addr_ne_of_data supply.exact live mapped live']
    exact supply.exact
  clear b past j := by
    have other : b ≠ v.addr inum (dataSlot fbn) := by
      rintro rfl
      have bound := (supply.handed live mapped).2
      omega
    show update v.block _ data b j = 0
    rw [update_of_ne other, supply.clear b past j]
  start := supply.start

structure Appended (s : Image) (inum : Word) (din : Dinode) (files : Word → List Byte)
    (p : List Byte) (result : Image × Dinode × Nat) : Prop where
  data : DataOnly s result.1
  build : Building (view result.1 inum result.2.1) result.1.freeblock.toNat
    (Function.update files inum (files inum ++ p))
  others : Volume.Others (view s inum din) (view result.1 inum result.2.1) inum
  dinode : ∃ addrs, result.2.1 = { din with addrs := addrs }
  free : result.1.freeblock.toNat + need (files inum).length =
    s.freeblock.toNat + need ((files inum).length + p.length)
  off : result.2.2 = (files inum).length + p.length

theorem Appended.nil (build : Building (view s inum din) s.freeblock.toNat files) :
    Appended s inum din files [] (s, din, (files inum).length) where
  data := DataOnly.refl s
  build := by
    rw [List.append_nil, update_eq_self]
    exact build
  others := Volume.Others.refl _ _
  dinode := ⟨_, rfl⟩
  free := rfl
  off := rfl

variable {p : List Byte}

theorem Appended.live {result : Image × Dinode × Nat}
    (appended : Appended s inum din files p result) (live : (view s inum din).Live inum) :
    (view result.1 inum result.2.1).Live inum := by
  obtain ⟨addrs, same⟩ := appended.dinode
  unfold Volume.Live at *
  rw [view_dinode] at *
  rw [same]
  exact live

variable {v' : Volume}

theorem Building.change {free' : Nat} {bytes : List Byte} (build : Building v free files)
    (others : Volume.Others v v' inum) (supply : Supply v' free')
    (holds : v'.Holds inum (blocksFor bytes.length) bytes) (fits : bytes.length ≤ maxfile * bsize) :
    Building v' free' (update files inum bytes) where
  toSupply := supply
  holds {i} live := by
    by_cases self : i = inum
    · rw [self, update_self]
      exact holds
    · have old := (others.live self).mp live
      rw [update_of_ne self]
      refine others.holds self old ?_ (build.holds old)
      have bound := build.fits old
      simp only [blocksFor, bsize] at *
      omega
  fits {i} live := by
    by_cases self : i = inum
    · rw [self, update_self]
      exact fits
    · rw [update_of_ne self]
      exact build.fits ((others.live self).mp live)

theorem Building.holds_filled (build : Building v free files) (live : v.Live inum)
    (small : (files inum).length / bsize < maxfile)
    (filled : Volume.Filled v v' inum ((files inum).length / bsize)) :
    v'.Holds inum ((files inum).length / bsize + 1) (files inum) := by
  have holds := build.holds live
  have blocks : blocksFor (files inum).length = (files inum).length / bsize ∧
      (files inum).length = (files inum).length / bsize * bsize ∨
      blocksFor (files inum).length = (files inum).length / bsize + 1 := by
    simp only [blocksFor, bsize] at *
    omega
  rcases blocks with ⟨same, whole⟩ | one
  · rw [same] at holds
    exact filled.grow small holds (Nat.le_of_eq whole)
  · rw [one] at holds
    exact filled.holds (Nat.lt_succ_self _) small holds

theorem Appended.trans {p p' : List Byte} {first second : Image × Dinode × Nat}
    (one : Appended s inum din files p first)
    (two : Appended first.1 inum first.2.1 (update files inum (files inum ++ p)) p'
      second) : Appended s inum din files (p ++ p') second := by
  have mid : update files inum (files inum ++ p) inum = files inum ++ p :=
    update_self ..
  constructor
  case data => exact one.data.trans two.data
  case build =>
    have build := two.build
    rw [mid, update_idem, List.append_assoc] at build
    exact build
  case others => exact one.others.trans two.others
  case dinode =>
    obtain ⟨addrs, same⟩ := one.dinode
    obtain ⟨addrs', same'⟩ := two.dinode
    exact ⟨addrs', by rw [same', same]⟩
  case free =>
    have before := one.free
    have after := two.free
    rw [mid, List.length_append] at after
    rw [List.length_append]
    rw [show (files inum).length + (p.length + p'.length) =
      (files inum).length + p.length + p'.length by omega]
    omega
  case off =>
    rw [two.off, mid, List.length_append, List.length_append]
    omega

theorem append_round (build : Building (view s inum din) s.freeblock.toNat files)
    (live : (view s inum din).Live inum) (some : p ≠ [])
    (inside : (files inum).length % bsize + p.length ≤ bsize)
    (small : (files inum).length / bsize < maxfile)
    (room : s.freeblock.toNat + need ((files inum).length + p.length) ≤
      fsSize + need (files inum).length) :
    ∃ taken, blockAt s din ((files inum).length / bsize) = .ok taken ∧
      rsect taken.1 taken.2.2 = .ok (taken.1.disk taken.2.2) ∧
      Appended s inum din files p (wsect taken.1 taken.2.2
        (putBytes (taken.1.disk taken.2.2) ((files inum).length % bsize) p), taken.2.1,
          (files inum).length + p.length) := by
  have positive : 0 < p.length := List.length_pos_of_ne_nil some
  have cost := build.missing_need live positive inside small
  obtain ⟨taken, done, block⟩ := blockAt_spec build.toSupply live small (by omega)
  obtain ⟨s₁, din₁, x⟩ := taken
  have live₁ : (view s₁ inum din₁).Live inum := block.filled.live.mpr live
  have place : (view s₁ inum din₁).addr inum (dataSlot ((files inum).length / bsize)) = x :=
    block.place
  have mapped : (view s₁ inum din₁).addr inum (dataSlot ((files inum).length / bsize)) ≠ 0 :=
    block.filled.here
  have handed : Handed s₁.freeblock.toNat x := place ▸ block.supply.handed live₁ mapped
  have free : s₁.freeblock.toNat = _ := block.free
  have sector : x.toNat < fsSize := by
    have bound := handed.2
    omega
  have holds₁ := build.holds_filled live small block.filled
  have written := holds₁.write block.supply.exact live₁ small (Nat.lt_succ_self _) inside
  generalize final : wsect s₁ x (putBytes (s₁.disk x) ((files inum).length % bsize) p) = s₂
  have after : view s₂ inum din₁ = (view s₁ inum din₁).setBlock
      ((view s₁ inum din₁).addr inum (dataSlot ((files inum).length / bsize)))
      (putBytes ((view s₁ inum din₁).block
        ((view s₁ inum din₁).addr inum (dataSlot ((files inum).length / bsize))))
          ((files inum).length % bsize) p) := by
    rw [← final, place, view_wsect s₁ inum din₁ sector handed.1,
      view_block s₁ inum din₁ handed.1]
  have freeblock : s₂.freeblock = s₁.freeblock := by rw [← final, wsect]
  have others : Volume.Others (view s inum din) (view s₂ inum din₁) inum := by
    rw [after]
    exact block.filled.others.trans (Volume.others_setBlock block.supply.exact live₁ mapped _)
  have supply : Supply (view s₂ inum din₁) s₂.freeblock.toNat := by
    rw [after, freeblock]
    exact block.supply.write live₁ mapped _
  have blocks : blocksFor (files inum ++ p).length = (files inum).length / bsize + 1 := by
    rw [List.length_append]
    simp only [blocksFor, bsize] at *
    omega
  refine ⟨_, done, rsect_ok sector, ?_⟩
  rw [final]
  constructor
  case data => exact block.data.trans (final ▸ DataOnly.wsect sector handed.1 _)
  case build =>
    refine build.change others supply ?_ ?_
    · rw [blocks, after]
      exact written
    · rw [List.length_append]
      simp only [bsize] at *
      omega
  case others => exact others
  case dinode =>
    obtain ⟨addrs, same⟩ := block.filled.dinode
    rw [view_dinode, view_dinode] at same
    exact ⟨addrs, same⟩
  case free =>
    show s₂.freeblock.toNat + _ = _
    rw [freeblock]
    omega
  case off => rfl

def roundBytes (off : Nat) (p : List Byte) : Nat := min p.length ((off / bsize + 1) * bsize - off)

theorem roundBytes_bounds (off : Nat) (some : p ≠ []) :
    0 < roundBytes off p ∧ roundBytes off p ≤ p.length ∧
      off % bsize + roundBytes off p ≤ bsize := by
  have positive : 0 < p.length := List.length_pos_of_ne_nil some
  simp only [roundBytes, bsize]
  omega

theorem iappendLoop_round (fuel : Nat) {off : Nat} {taken : Image × Dinode × Word} (some : p ≠ [])
    (small : off / bsize < maxfile) (block : blockAt s din (off / bsize) = .ok taken)
    (read : rsect taken.1 taken.2.2 = .ok (taken.1.disk taken.2.2)) :
    iappendLoop (fuel + 1) s din off p =
      iappendLoop fuel (wsect taken.1 taken.2.2 (putBytes (taken.1.disk taken.2.2) (off % bsize)
        (p.take (roundBytes off p)))) taken.2.1 (off + roundBytes off p)
        (p.drop (roundBytes off p)) := by
  have start : off - off / bsize * bsize = off % bsize := by
    simp only [bsize]
    omega
  cases p with
  | nil => exact absurd rfl some
  | cons c rest =>
    rw [iappendLoop, if_neg (by omega), block]
    simp only [bind, Except.bind, read, start]
    rfl

theorem iappendLoop_spec (fuel : Nat) : ∀ {s : Image} {din : Dinode} {files : Word → List Byte}
    {p : List Byte}, p.length ≤ fuel →
    Building (view s inum din) s.freeblock.toNat files → (view s inum din).Live inum →
    (files inum).length + p.length ≤ maxfile * bsize →
    s.freeblock.toNat + need ((files inum).length + p.length) ≤
      fsSize + need (files inum).length →
    ∃ result, iappendLoop fuel s din (files inum).length p = .ok result ∧
      Appended s inum din files p result := by
  induction fuel with
  | zero =>
    intro s din files p enough build live fits room
    have empty : p = [] := List.length_eq_zero_iff.mp (Nat.le_zero.mp enough)
    rw [empty]
    exact ⟨_, by rw [iappendLoop], Appended.nil build⟩
  | succ fuel ih =>
    intro s din files p enough build live fits room
    by_cases empty : p = []
    · rw [empty]
      exact ⟨_, by rw [iappendLoop], Appended.nil build⟩
    obtain ⟨some, within, inside⟩ := roundBytes_bounds (files inum).length empty
    have small : (files inum).length / bsize < maxfile := by
      refine Nat.div_lt_of_lt_mul ?_
      rw [Nat.mul_comm]
      have positive : 0 < p.length := List.length_pos_of_ne_nil empty
      omega
    generalize count : roundBytes (files inum).length p = n1 at *
    have front : (p.take n1).length = n1 := List.length_take_of_le within
    have back : (p.drop n1).length = p.length - n1 := List.length_drop
    have less : need ((files inum).length + n1) ≤ need ((files inum).length + p.length) :=
      need_mono (by omega)
    have nonempty : p.take n1 ≠ [] := List.ne_nil_of_length_pos (by omega)
    obtain ⟨taken, block, read, one⟩ := append_round build live nonempty (by rwa [front]) small
      (by rw [front]; omega)
    have step := iappendLoop_round fuel empty small block read
    rw [count] at step
    have free := one.free
    rw [front] at one free
    generalize wsect taken.1 taken.2.2 (putBytes (taken.1.disk taken.2.2)
      ((files inum).length % bsize) (p.take n1)) = s₁ at step one free
    have length : (update files inum (files inum ++ p.take n1) inum).length =
        (files inum).length + n1 := by
      rw [update_self, List.length_append, front]
    have total : (files inum).length + n1 + (p.drop n1).length =
        (files inum).length + p.length := by omega
    have rest := ih (s := s₁) (p := p.drop n1) (by omega) one.build (one.live live)
    rw [length, total] at rest
    obtain ⟨result, done, two⟩ := rest fits (by
      show s₁.freeblock.toNat + _ ≤ _
      have free : s₁.freeblock.toNat + _ = _ := free
      omega)
    have whole := one.trans two
    rw [List.take_append_drop] at whole
    exact ⟨result, step.trans done, whole⟩

structure Built (s : Image) (files : Word → List Byte) : Prop
    extends Building (s.disk.volume sb) s.freeblock.toNat files where
  size : ∀ {i}, (s.disk.volume sb).Live i →
    ((s.disk.volume sb).dinode i).size.toNat = (files i).length

def SameFront (s s' : Image) : Prop :=
  ∀ b : Word, b.toNat < sb.inodestart.toNat → s'.disk b = s.disk b

theorem sameFront_putDinode (known : inum < sb.ninodes) (din : Dinode) :
    SameFront s { s with disk := s.disk.putDinode sb inum din } := by
  intro b before
  refine update_of_ne ?_ _ _
  rintro rfl
  have place := (sb_valid.iblock_toNat known).1
  omega

structure Grown (s : Image) (inum : Word) (files : Word → List Byte) (p : List Byte)
    (s' : Image) : Prop where
  built : Built s' (Function.update files inum (files inum ++ p))
  dinode : ∀ i, ∃ size addrs, (s'.disk.volume sb).dinode i =
    { (s.disk.volume sb).dinode i with
      size := size
      addrs := addrs }
  free : s'.freeblock.toNat + need (files inum).length =
    s.freeblock.toNat + need ((files inum).length + p.length)
  freeinode : s'.freeinode = s.freeinode
  front : SameFront s s'

theorem Grown.live (grown : Grown s inum files p s') {i : Word} :
    (s'.disk.volume sb).Live i ↔ (s.disk.volume sb).Live i := by
  obtain ⟨size, addrs, same⟩ := grown.dinode i
  rw [Volume.Live, Volume.Live, same]

theorem Building.congr (build : Building v free files) (live : ∀ i, v'.Live i ↔ v.Live i)
    (addrs : ∀ i, (v'.dinode i).addrs = (v.dinode i).addrs) (block : v'.block = v.block) :
    Building v' free files := by
  have addr : ∀ i slot, v'.addr i slot = v.addr i slot := fun i slot =>
    Volume.addr_congr (addrs i) fun _ => by rw [block]
  have ref : v'.ref = v.ref := by
    funext slot
    simp only [ref, live, addr]
  constructor
  case toSupply =>
    refine ⟨?_, ?_, build.start⟩
    · rw [ref]
      exact build.exact
    · rw [block]
      exact build.clear
  case holds =>
    intro i live'
    have holds := build.holds ((live i).mp live')
    refine ⟨holds.mapped.congr (addr i), fun off inside => ?_⟩
    rw [← holds.bytes off inside]
    exact Volume.byte_congr (addr i _) (by rw [block])
  case fits => exact fun {i} live' => build.fits ((live i).mp live')

theorem iappend_spec (built : Built s files) (live : (s.disk.volume sb).Live inum)
    (fits : (files inum).length + p.length ≤ maxfile * bsize)
    (room : s.freeblock.toNat + need ((files inum).length + p.length) ≤
      fsSize + need (files inum).length) :
    ∃ s', iappend s inum p = .ok s' ∧ Grown s inum files p s' := by
  have known : inum < sb.ninodes := Disk.known_of_live live
  have self := view_self s inum
  have loop := iappendLoop_spec p.length (s := s) (p := p) (Nat.le_refl _)
    (self.symm ▸ built.toBuilding) (self.symm ▸ live) fits room
  obtain ⟨result, done, appended⟩ := loop
  obtain ⟨s₁, din₁, off⟩ := result
  have ends : off = (files inum).length + p.length := appended.off
  generalize stored : ({ din₁ with size := BitVec.ofNat 32 off } : Dinode) = din₂
  have run : iappend s inum p = .ok { s₁ with disk := s₁.disk.putDinode sb inum din₂ } := by
    simp only [iappend, rinode_ok known, bind, Except.bind, built.size live, done, stored]
    exact winode_ok known
  refine ⟨_, run, ?_⟩
  have volume : Disk.volume (s₁.disk.putDinode sb inum din₂) sb = view s₁ inum din₂ :=
    Disk.volume_putDinode sb_valid known _
  have others : Volume.Others (s.disk.volume sb) (view s₁ inum din₁) inum :=
    self ▸ appended.others
  have elsewhere : ∀ {i}, i ≠ inum →
      (view s₁ inum din₂).dinode i = (s.disk.volume sb).dinode i := fun other =>
    (update_of_ne other _ _).trans
      ((update_of_ne other _ _).symm.trans (others.dinode other))
  obtain ⟨addrs, inode⟩ := appended.dinode
  have inode : din₁ = { (s.disk.volume sb).dinode inum with addrs := addrs } := inode
  constructor
  case built =>
    constructor
    case toBuilding =>
      show Building (Disk.volume (s₁.disk.putDinode sb inum din₂) sb) s₁.freeblock.toNat _
      rw [volume]
      refine appended.build.congr (fun i => ?_) (fun i => ?_) rfl
      · by_cases same : i = inum
        · rw [same, Volume.Live, Volume.Live, view_dinode, view_dinode, ← stored]
        · rw [Volume.Live, Volume.Live, elsewhere same, others.dinode same]
      · by_cases same : i = inum
        · rw [same, view_dinode, view_dinode, ← stored]
        · rw [elsewhere same, others.dinode same]
    case size =>
      show ∀ {i}, (Disk.volume (s₁.disk.putDinode sb inum din₂) sb).Live i →
        ((Disk.volume (s₁.disk.putDinode sb inum din₂) sb).dinode i).size.toNat = _
      intro i live'
      rw [volume] at live' ⊢
      by_cases same : i = inum
      · have bound : off < 2 ^ 32 := by
          have limit : maxfile * bsize = 71680 := rfl
          omega
        rw [same, view_dinode, ← stored, update_self, List.length_append, ← ends]
        exact Nat.mod_eq_of_lt bound
      · rw [Volume.Live, elsewhere same] at live'
        rw [elsewhere same, update_of_ne same]
        exact built.size live'
  case dinode =>
    intro i
    show ∃ size addrs, (Disk.volume (s₁.disk.putDinode sb inum din₂) sb).dinode i = _
    rw [volume]
    by_cases same : i = inum
    · exact ⟨BitVec.ofNat 32 off, addrs, by rw [same, view_dinode, ← stored, inode]⟩
    · exact ⟨_, _, elsewhere same⟩
  case free => exact appended.free
  case freeinode => exact appended.data.freeinode
  case front =>
    intro b before
    have low : b.toNat < nmeta := lt_trans before (by decide)
    exact (sameFront_putDinode known din₂ b before).trans (appended.data.low b low)

def newInode (type : Short) : Dinode :=
  { Dinode.zero with
    type := type
    nlink := 1 }

structure Allocated (s : Image) (files : Word → List Byte) (type : Short) (s' : Image) : Prop where
  built : Built s' (Function.update files s.freeinode [])
  volume : s'.disk.volume sb = (s.disk.volume sb).setDinode s.freeinode (newInode type)
  freeblock : s'.freeblock = s.freeblock
  freeinode : s'.freeinode = s.freeinode + 1
  front : SameFront s s'

theorem addr_newInode (type : Short) (inum : Word) (slot : AddrSlot) :
    (v.setDinode inum (newInode type)).addr inum slot = 0 := by
  have dinode := Volume.dinode_setDinode v inum (newInode type)
  cases slot with
  | direct k =>
    rw [addr, dinode]
    rfl
  | indirect j =>
    rw [addr, dinode]
    exact if_pos rfl

theorem ref_newInode (type : Short) (free : ¬ v.Live inum) :
    (v.setDinode inum (newInode type)).ref = v.ref := by
  funext slot
  obtain ⟨i, slot⟩ := slot
  unfold ref
  by_cases same : i = inum
  · rw [same, if_neg fun both => both.2 (addr_newInode type inum slot),
      if_neg fun both => free both.1]
  · have others : Volume.Others v (v.setDinode inum (newInode type)) inum :=
      Volume.others_setDinode _
    have live := others.live same
    by_cases old : v.Live i
    · simp only [live, others.addr slot same old]
    · simp only [live, old, false_and, if_false]

theorem ialloc_spec (type : Short) (built : Built s files)
    (known : s.freeinode < sb.ninodes) (free : ¬ (s.disk.volume sb).Live s.freeinode) :
    ∃ s', ialloc s type = .ok (s.freeinode, s') ∧ Allocated s files type s' := by
  have run : ialloc s type = .ok (s.freeinode,
      { s with
        freeinode := s.freeinode + 1
        disk := s.disk.putDinode sb s.freeinode (newInode type) }) := by
    simp only [ialloc, winode_ok known]
    rfl
  refine ⟨_, run, ?_⟩
  have volume : Disk.volume (s.disk.putDinode sb s.freeinode (newInode type)) sb =
      (s.disk.volume sb).setDinode s.freeinode (newInode type) :=
    Disk.volume_putDinode sb_valid known _
  have others : Volume.Others (s.disk.volume sb)
      ((s.disk.volume sb).setDinode s.freeinode (newInode type)) s.freeinode :=
    Volume.others_setDinode _
  have none : blocksFor ([] : List Byte).length = 0 := by decide
  have supply : Supply ((s.disk.volume sb).setDinode s.freeinode (newInode type))
      s.freeblock.toNat := by
    refine ⟨?_, built.clear, built.start⟩
    rw [ref_newInode type free]
    exact built.exact
  have empty : ((s.disk.volume sb).setDinode s.freeinode (newInode type)).Holds s.freeinode
      (blocksFor ([] : List Byte).length) [] := by
    rw [none]
    refine ⟨⟨fun bn low => ?_, ?_⟩, fun off inside => absurd inside (by omega)⟩
    · exact ⟨fun some => absurd (addr_newInode ..) some, fun none => absurd none (by omega)⟩
    · exact ⟨fun some => absurd (addr_newInode ..) some, fun none => absurd none (by omega)⟩
  constructor
  case built =>
    constructor
    case toBuilding =>
      show Building (Disk.volume (s.disk.putDinode sb s.freeinode (newInode type)) sb) _ _
      rw [volume]
      exact built.toBuilding.change others supply empty (Nat.zero_le _)
    case size =>
      show ∀ {i}, (Disk.volume (s.disk.putDinode sb s.freeinode (newInode type)) sb).Live i →
        ((Disk.volume (s.disk.putDinode sb s.freeinode (newInode type)) sb).dinode i).size.toNat = _
      intro i live
      rw [volume] at live ⊢
      by_cases same : i = s.freeinode
      · rw [same, update_self, Volume.dinode_setDinode]
        rfl
      · rw [others.dinode same, update_of_ne same]
        exact built.size ((others.live same).mp live)
  case volume => exact volume
  case freeblock => rfl
  case freeinode => rfl
  case front => exact sameFront_putDinode known _

end Xv6.Mkfs
