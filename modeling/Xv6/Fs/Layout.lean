import Xv6.Fs.Volume

/-!
# The layout of the disk

The superblock says where inodes, bitmap and data are. With the areas in order and apart, the disk
gives a volume: storing an inode changes that inode, writing a block of data changes that block,
and writing any other block changes nothing of the volume.
-/

namespace Xv6

open Function (update update_apply update_of_ne update_self)

def Superblock.dataStart (sb : Superblock) : Nat := sb.bmapstart.toNat + sb.size.toNat / bpb + 1

structure Superblock.Valid (sb : Superblock) : Prop where
  inodes : 2 ≤ sb.inodestart.toNat
  bitmap : sb.inodestart.toNat + sb.ninodes.toNat / ipb < sb.bmapstart.toNat
  data : sb.dataStart ≤ sb.size.toNat
  small : sb.size.toNat < 2 ^ 31
  short : sb.ninodes.toNat ≤ 2 ^ 16

theorem Superblock.bmapstart_lt (sb : Superblock) : sb.bmapstart.toNat < sb.dataStart :=
  Nat.lt_succ_of_le (Nat.le_add_right ..)

variable {sb : Superblock} {disk : Disk} {i : Word} {b : BlockNo}

theorem Superblock.Valid.iblock_toNat (valid : sb.Valid) (known : i < sb.ninodes) :
    (iblock sb i).toNat = i.toNat / 8 + sb.inodestart.toNat ∧
      (iblock sb i).toNat < sb.bmapstart.toNat := by
  have order : i.toNat < sb.ninodes.toNat := known
  have bitmap := valid.bitmap
  have ends : (sb.bmapstart).toNat < 2 ^ 32 := sb.bmapstart.isLt
  have per : ipb = 8 := rfl
  have value : (iblock sb i).toNat = (i.toNat / 8 + sb.inodestart.toNat) % 2 ^ 32 := by
    rw [iblock, BitVec.toNat_add, BitVec.toNat_udiv]
    rfl
  rw [per] at bitmap
  rw [value, Nat.mod_eq_of_lt (by omega)]
  exact ⟨rfl, by omega⟩

theorem Superblock.Valid.inode_inj (valid : sb.Valid) {i' : Word} (known : i < sb.ninodes)
    (known' : i' < sb.ninodes) (block : iblock sb i' = iblock sb i)
    (place : iplace i' = iplace i) : i' = i := by
  have first := (valid.iblock_toNat known).1
  have second := (valid.iblock_toNat known').1
  have places : i'.toNat % ipb = i.toNat % ipb := congrArg Fin.val place
  rw [block, first] at second
  apply BitVec.eq_of_toNat_eq
  have per : ipb = 8 := rfl
  rw [per] at places
  omega

namespace Disk

def volume (disk : Disk) (sb : Superblock) : Volume where
  dinode i := if i < sb.ninodes then disk.dinode sb i else Dinode.zero
  block b := if sb.dataStart ≤ b.toNat then disk b else fun _ => 0

theorem known_of_live (live : (disk.volume sb).Live i) : i < sb.ninodes := by
  by_contra unknown
  apply live
  show (if i < sb.ninodes then disk.dinode sb i else Dinode.zero).type = 0
  rw [if_neg unknown]
  rfl

theorem volume_dinode (known : i < sb.ninodes) :
    (disk.volume sb).dinode i = disk.dinode sb i := if_pos known

theorem volume_block (data : sb.dataStart ≤ b.toNat) : (disk.volume sb).block b = disk b :=
  if_pos data

theorem volume_putDinode (valid : sb.Valid) (known : i < sb.ninodes) (din : Dinode) :
    (disk.putDinode sb i din).volume sb = (disk.volume sb).setDinode i din := by
  have before := (valid.iblock_toNat known).2
  have inodes : ∀ i', ((disk.putDinode sb i din).volume sb).dinode i' =
      update (disk.volume sb).dinode i din i' := by
    intro i'
    rw [update_apply]
    by_cases known' : i' < sb.ninodes
    · rw [volume_dinode known', dinode, putDinode]
      by_cases same : i' = i
      · rw [if_pos same, same, update_self, Dinode.ofBlock_store]
      · rw [if_neg same, volume_dinode known', dinode]
        by_cases block : iblock sb i' = iblock sb i
        · rw [block, update_self, Dinode.ofBlock_store_of_ne]
          exact fun place => same (valid.inode_inj known known' block place)
        · rw [update_of_ne block]
    · have differ : i' ≠ i := by
        rintro rfl
        exact known' known
      rw [if_neg differ]
      exact (if_neg known').trans (if_neg known').symm
  have blocks : ∀ b,
      ((disk.putDinode sb i din).volume sb).block b = (disk.volume sb).block b := by
    intro b
    by_cases data : sb.dataStart ≤ b.toNat
    · rw [volume_block data, volume_block data, putDinode, update_of_ne]
      rintro rfl
      have start := sb.bmapstart_lt
      omega
    · exact (if_neg data).trans (if_neg data).symm
  exact congrArg₂ Volume.mk (funext inodes) (funext blocks)

theorem volume_inodes (valid : sb.Valid) (after : sb.bmapstart.toNat ≤ b.toNat) (x : Block) :
    (Disk.volume (update disk b x) sb).dinode = (disk.volume sb).dinode := by
  funext i
  by_cases known : i < sb.ninodes
  · have before := (valid.iblock_toNat known).2
    rw [volume_dinode known, volume_dinode known, dinode, dinode, update_of_ne]
    intro same
    rw [same] at before
    omega
  · exact (if_neg known).trans (if_neg known).symm

theorem volume_data (valid : sb.Valid) (start : sb.dataStart ≤ b.toNat) (x : Block) :
    Disk.volume (update disk b x) sb = (disk.volume sb).setBlock b x := by
  have inodes : (Disk.volume (update disk b x) sb).dinode = (disk.volume sb).dinode :=
    volume_inodes valid (le_trans (Nat.le_of_lt sb.bmapstart_lt) start) x
  have blocks : ∀ b', (Disk.volume (update disk b x) sb).block b' =
      update (disk.volume sb).block b x b' := by
    intro b'
    rw [update_apply]
    by_cases data : sb.dataStart ≤ b'.toNat
    · rw [volume_block data, volume_block data, update_apply]
    · have differ : b' ≠ b := by
        rintro rfl
        exact data start
      rw [if_neg differ]
      exact (if_neg data).trans (if_neg data).symm
  exact congrArg₂ Volume.mk inodes (funext blocks)

theorem volume_bitmap (valid : sb.Valid) (after : sb.bmapstart.toNat ≤ b.toNat)
    (before : b.toNat < sb.dataStart) (x : Block) :
    Disk.volume (update disk b x) sb = disk.volume sb := by
  have blocks : ∀ b', (Disk.volume (update disk b x) sb).block b' =
      (disk.volume sb).block b' := by
    intro b'
    by_cases data : sb.dataStart ≤ b'.toNat
    · rw [volume_block data, volume_block data, update_of_ne]
      rintro rfl
      omega
    · exact (if_neg data).trans (if_neg data).symm
  exact congrArg₂ Volume.mk (volume_inodes valid after x) (funext blocks)

end Disk

end Xv6
