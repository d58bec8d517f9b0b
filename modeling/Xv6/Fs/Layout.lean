import Xv6.Log.Commit

/-! The on-disk format of `kernel/fs.h`: super block, inodes and free bit map. -/
namespace Xv6.Fs

def ndirect : ℕ := 12

def nindirect : ℕ := bsize / 4

def maxFile : ℕ := ndirect + nindirect

def ipb : ℕ := bsize / 64

def bpb : ℕ := bsize * 8

theorem ndirect_eq : ndirect = 12 := rfl

theorem maxFile_eq : maxFile = 268 := rfl

theorem ipb_eq : ipb = 16 := rfl

theorem bpb_eq : bpb = 8192 := rfl

structure Superblock where
  size : ℕ
  ninodes : ℕ
  nlog : ℕ
  logstart : ℕ
  inodestart : ℕ
  bmapstart : ℕ

namespace Superblock

variable (sb : Superblock)

def iblock (i : ℕ) : ℕ := i / ipb + sb.inodestart

def bblock (b : ℕ) : ℕ := b / bpb + sb.bmapstart

/-- The data area begins after the blocks of the free bit map. -/
def dataStart : ℕ := sb.bmapstart + sb.size / bpb + 1

def geometry : Log.Geometry := ⟨sb.logstart, sb.nlog⟩

/-- The areas follow each other on the disk as `mkfs` lays them out. -/
structure Valid : Prop where
  log : sb.logstart + sb.nlog ≤ sb.inodestart
  inodes : sb.inodestart + sb.ninodes / ipb < sb.bmapstart
  data : sb.dataStart ≤ sb.size
  size : sb.size < 2 ^ 31

def mkfs : Superblock where
  size := 2000
  ninodes := 200
  nlog := Xv6.nlog
  logstart := 2
  inodestart := 2 + Xv6.nlog
  bmapstart := 2 + Xv6.nlog + (200 / ipb + 1)

theorem mkfs_valid : mkfs.Valid := ⟨by decide, by decide, by decide, by decide⟩

end Superblock

/-- `struct dinode`, and the fields of `struct inode` that are a copy of it. -/
@[ext] structure Dinode where
  type : BitVec 16
  major : BitVec 16
  minor : BitVec 16
  nlink : BitVec 16
  size : BitVec 32
  addrs : Fin (ndirect + 1) → BitVec 32

namespace Dinode

def zero : Dinode := ⟨0, 0, 0, 0, 0, fun _ => 0⟩

def addr (d : Dinode) (k : ℕ) : ℕ := if h : k < ndirect + 1 then (d.addrs ⟨k, h⟩).toNat else 0

def setAddr (d : Dinode) (k a : ℕ) : Dinode :=
  { d with addrs := fun i => if i.val = k then BitVec.ofNat 32 a else d.addrs i }

variable (d : Dinode)

@[simp] theorem addr_zero (k : ℕ) : zero.addr k = 0 := by
  simp [addr, zero]

theorem addr_setAddr {k a : ℕ} (hk : k ≤ ndirect) (ha : a < 2 ^ 32) (j : ℕ) :
    (d.setAddr k a).addr j = if j = k then a else d.addr j := by
  unfold addr setAddr
  by_cases hj : j < ndirect + 1
  · by_cases hjk : j = k
    · subst hjk
      rw [dif_pos hj, if_pos rfl]
      simpa using ha
    · simp [hj, hjk]
  · rw [dif_neg hj, dif_neg hj, if_neg (by omega)]

@[simp] theorem type_setAddr (k a : ℕ) : (d.setAddr k a).type = d.type := rfl

@[simp] theorem size_setAddr (k a : ℕ) : (d.setAddr k a).size = d.size := rfl

end Dinode

def readDinode (c : Block) (k : ℕ) : Dinode where
  type := BitVec.ofNat 16 (c.getLE (64 * k) 2)
  major := BitVec.ofNat 16 (c.getLE (64 * k + 2) 2)
  minor := BitVec.ofNat 16 (c.getLE (64 * k + 4) 2)
  nlink := BitVec.ofNat 16 (c.getLE (64 * k + 6) 2)
  size := BitVec.ofNat 32 (c.getLE (64 * k + 8) 4)
  addrs i := BitVec.ofNat 32 (c.getLE (64 * k + 12 + 4 * i) 4)

def writeDinode (c : Block) (k : ℕ) (d : Dinode) : Block :=
  (((((c.setLE (64 * k) 2 d.type.toNat).setLE (64 * k + 2) 2 d.major.toNat).setLE
    (64 * k + 4) 2 d.minor.toNat).setLE (64 * k + 6) 2 d.nlink.toNat).setLE
      (64 * k + 8) 4 d.size.toNat).setWords (64 * k + 12) (List.ofFn fun i => (d.addrs i).toNat)

theorem ofNat_toNat_mod {w : ℕ} (x : BitVec w) {m : ℕ} (hm : m = 2 ^ w) :
    BitVec.ofNat w (x.toNat % m) = x := by
  rw [hm, Nat.mod_eq_of_lt x.isLt, BitVec.ofNat_toNat, BitVec.setWidth_eq]

open Lib.Bytes in
theorem readDinode_writeDinode (c : Block) {k : ℕ} (hk : k < ipb) (d : Dinode) :
    readDinode (writeDinode c k d) k = d := by
  rw [ipb_eq] at hk
  have hb := bsize_eq
  have hlen : (List.ofFn fun i => (d.addrs i).toNat).length = 13 := by simp [ndirect_eq]
  unfold readDinode writeDinode
  ext : 1
  case addrs =>
    funext i
    simp only
    rw [getLE_setWords _ _ _ (by omega) (by rw [hlen]; exact i.isLt), List.getElem_ofFn]
    exact ofNat_toNat_mod _ rfl
  all_goals
    simp (disch := omega) only [getLE_setWords_of_disjoint, getLE_setLE_of_disjoint,
      getLE_setLE_self]
    exact ofNat_toNat_mod _ (by norm_num)

open Lib.Bytes in
theorem readDinode_writeDinode_of_ne (c : Block) {k j : ℕ} (hj : j ≠ k) (d : Dinode) :
    readDinode (writeDinode c k d) j = readDinode c j := by
  have hlen : (List.ofFn fun i => (d.addrs i).toNat).length = 13 := by simp [ndirect_eq]
  unfold readDinode writeDinode
  ext : 1
  case addrs =>
    funext i
    have hi : i.val < 13 := i.isLt
    simp (disch := omega) only [getLE_setWords_of_disjoint, getLE_setLE_of_disjoint]
  all_goals
    simp (disch := omega) only [getLE_setWords_of_disjoint, getLE_setLE_of_disjoint]

variable (sb : Superblock) (blocks : Disk)

def inode (i : ℕ) : Dinode := readDinode (blocks (sb.iblock i)) (i % ipb)

/-- Whether block `b` is marked used in the free bit map. -/
def used (b : ℕ) : Bool := (blocks (sb.bblock b)).testBit (b % bpb)

end Xv6.Fs
