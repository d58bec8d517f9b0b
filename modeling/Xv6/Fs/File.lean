import Xv6.Fs.Layout
import Xv6.Vm.UserMem

/-! The block, inode and file layers of `kernel/fs.c` as code on buffers. An in-memory inode is
passed along as a value. -/
namespace Xv6.Fs

open Bio

variable (sb : Superblock)

def bzero (bno : ℕ) : Code Unit := do
  let _ ← bread bno
  store bno fun _ => 0
  logWrite bno
  brelse bno

/-- The inner loop of `balloc`: the first of the bits below `n` that is clear. -/
def freeBit (data : Block) (n : ℕ) : Option ℕ :=
  (List.range n).find? fun bi => data.testBit bi = false

/-- The outer loop of `balloc` over the first blocks of the bitmap blocks. -/
def ballocFrom : List ℕ → Code ℕ
  | [] => return 0
  | b :: bs => do
    let bp ← bread (sb.bblock b)
    match freeBit bp (min bpb (sb.size - b)) with
    | some bi => do
      store (sb.bblock b) (bp.setBit bi)
      logWrite (sb.bblock b)
      brelse (sb.bblock b)
      bzero (b + bi)
      return b + bi
    | none => do
      brelse (sb.bblock b)
      ballocFrom bs

def balloc : Code ℕ :=
  ballocFrom sb ((List.range ((sb.size + bpb - 1) / bpb)).map (· * bpb))

def readInode (inum : ℕ) : Code Dinode := do
  let bp ← bread (sb.iblock inum)
  brelse (sb.iblock inum)
  return readDinode bp (inum % ipb)

def iupdate (inum : ℕ) (ip : Dinode) : Code Unit := do
  let bp ← bread (sb.iblock inum)
  store (sb.iblock inum) (writeDinode bp (inum % ipb) ip)
  logWrite (sb.iblock inum)
  brelse (sb.iblock inum)

/-- The address in `ip->addrs[k]`, allocated if there is none; `0` if out of disk space. -/
def bmapDirect (ip : Dinode) (k : ℕ) : Code (ℕ × Dinode) :=
  if ip.addr k = 0 then do
    let addr ← balloc sb
    if addr = 0 then return (0, ip)
    else return (addr, ip.setAddr k addr)
  else return (ip.addr k, ip)

def bmap (ip : Dinode) (bn : ℕ) : Code (ℕ × Dinode) :=
  if bn < ndirect then bmapDirect sb ip bn
  else if bn - ndirect < nindirect then do
    let (ind, ip) ← bmapDirect sb ip ndirect
    if ind = 0 then return (0, ip)
    else
      let bp ← bread ind
      let a := bp.getLE (4 * (bn - ndirect)) 4
      if a = 0 then do
        let addr ← balloc sb
        if addr = 0 then
          brelse ind
          return (0, ip)
        else
          store ind (bp.setLE (4 * (bn - ndirect)) 4 addr)
          logWrite ind
          brelse ind
          return (addr, ip)
      else
        brelse ind
        return (a, ip)
  else Bio.panic "bmap: out of range"

/-- Where `either_copyout` writes to; a user page can be written to if `copyout` accepts it. -/
inductive Dst where
  | kernel
  | user (writable : ℕ → Bool) (dst : ℕ)

/-- Whether `either_copyout` of `m` bytes to `dst + tot` succeeds. -/
def eitherCopyout : Dst → ℕ → ℕ → Bool
  | .kernel, _, _ => true
  | .user writable dst, tot, m => Vm.copyout writable ((dst + tot) % 2 ^ 64) m

inductive Src where
  | kernel (mem : ℕ → UInt8)
  | user (u : Vm.UserMem) (src : ℕ)

/-- `either_copyin` of `m` bytes from `src + tot`: the bytes stored, also those stored before a
failure, and whether all were. -/
def eitherCopyin : Src → ℕ → ℕ → List UInt8 × Bool
  | .kernel mem, tot, m => ((List.range m).map fun k => mem (tot + k), true)
  | .user u src, tot, m => Vm.copyin u ((src + tot) % 2 ^ 64) m

/-- The loop of `readi`, which every round takes forward by at least one byte. `out` are the bytes
handed out so far. -/
def readiLoop (dst : Dst) (n : ℕ) : ℕ → Dinode → ℕ → ℕ → List UInt8 → Code (ℤ × List UInt8 × Dinode)
  | 0, ip, tot, _, out => return (tot, out, ip)
  | fuel + 1, ip, tot, off, out =>
    if tot < n then do
      let (addr, ip) ← bmap sb ip (off / bsize)
      if addr = 0 then return (tot, out, ip)
      else
        let bp ← bread addr
        let m := min (n - tot) (bsize - off % bsize)
        if eitherCopyout dst tot m = false then
          brelse addr
          return (-1, out, ip)
        else
          brelse addr
          readiLoop dst n fuel ip (tot + m) (off + m) (out ++ bp.slice (off % bsize) m)
    else return (tot, out, ip)

/-- The return value, the bytes handed out, and the inode. -/
def readi (ip : Dinode) (dst : Dst) (off n : ℕ) : Code (ℤ × List UInt8 × Dinode) :=
  let size := ip.size.toNat
  if off > size ∨ (off + n) % 2 ^ 32 < off then return (0, [], ip)
  else
    let n := if (off + n) % 2 ^ 32 > size then size - off else n
    readiLoop sb dst n n ip 0 off []

/-- The stores of `either_copyin` to `bp->data + o`, if there are any. -/
def storeBytes (addr : ℕ) (bp : Block) (o : ℕ) (copied : List UInt8) : Code Unit :=
  if copied = [] then return else store addr (bp.blit o copied)

def writeiLoop (src : Src) (n : ℕ) : ℕ → Dinode → ℕ → ℕ → Code (ℕ × ℕ × Dinode)
  | 0, ip, tot, off => return (tot, off, ip)
  | fuel + 1, ip, tot, off =>
    if tot < n then do
      let (addr, ip) ← bmap sb ip (off / bsize)
      if addr = 0 then return (tot, off, ip)
      else
        let bp ← bread addr
        let m := min (n - tot) (bsize - off % bsize)
        let (copied, ok) := eitherCopyin src tot m
        storeBytes addr bp (off % bsize) copied
        if ok = false then
          brelse addr
          return (tot, off, ip)
        else
          logWrite addr
          brelse addr
          writeiLoop src n fuel ip (tot + m) (off + m)
    else return (tot, off, ip)

def writei (inum : ℕ) (ip : Dinode) (src : Src) (off n : ℕ) : Code (ℤ × Dinode) :=
  if off > ip.size.toNat ∨ (off + n) % 2 ^ 32 < off then return (-1, ip)
  else if (off + n) % 2 ^ 32 > maxFile * bsize then return (-1, ip)
  else do
    let (tot, off, ip) ← writeiLoop sb src n n ip 0 off
    let ip := if off > ip.size.toNat then { ip with size := BitVec.ofNat 32 off } else ip
    iupdate sb inum ip
    return (tot, ip)

end Xv6.Fs
