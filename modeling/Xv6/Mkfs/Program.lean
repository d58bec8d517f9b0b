import Xv6.Fs.Dir

/-! `mkfs/mkfs.c`, on a little-endian host, where `xshort` and `xint` do nothing. -/
namespace Xv6.Mkfs

open Lib Fs

def fssize : ℕ := 2000

def ninodes : ℕ := 200

def nbitmap : ℕ := fssize / bpb + 1

def ninodeblocks : ℕ := ninodes / ipb + 1

/-- The number of meta blocks: boot, super, log, inode and bitmap blocks. -/
def nmeta : ℕ := 2 + nlog + ninodeblocks + nbitmap

theorem fssize_eq : fssize = 2000 := rfl

theorem ninodes_eq : ninodes = 200 := rfl

theorem nmeta_eq : nmeta = 46 := rfl

/-- The image file, of which there are `size` sectors, and the global variables. -/
structure State where
  size : ℕ
  sect : Disk
  freeinode : ℕ
  freeblock : ℕ

/-- `nextInode` and `nextBlock` are `freeinode++` and `freeblock++`; `die` is also a failed
`assert`. -/
inductive Op where
  | rsect (sec : ℕ)
  | wsect (sec : ℕ) (buf : Block)
  | nextInode
  | nextBlock
  | getFreeblock
  | die (msg : String)

def interface : Interface where
  Op := Op
  Result
    | .rsect _ => Block
    | .wsect _ _ => Unit
    | .die _ => Empty
    | _ => ℕ

abbrev Code (α : Type) : Type := Prog interface α

def rsect (sec : ℕ) : Code Block := .op (.rsect sec) .ret

def wsect (sec : ℕ) (buf : Block) : Code Unit := .op (.wsect sec buf) .ret

def nextInode : Code ℕ := .op .nextInode .ret

def nextBlock : Code ℕ := .op .nextBlock .ret

def getFreeblock : Code ℕ := .op .getFreeblock .ret

def die {α : Type} (msg : String) : Code α := .op (.die msg) fun e => e.elim

/-- A sector beyond the end of the file cannot be read, and writing one makes the file longer. -/
def interp : Interp interface State
  | .rsect sec, s => if sec < s.size then .ok (s.sect sec, s) else .error "read"
  | .wsect sec buf, s =>
    .ok ((), { s with size := max s.size (sec + 1), sect := Function.update s.sect sec buf })
  | .nextInode, s => .ok (s.freeinode, { s with freeinode := s.freeinode + 1 })
  | .nextBlock, s => .ok (s.freeblock, { s with freeblock := s.freeblock + 1 })
  | .getFreeblock, s => .ok (s.freeblock, s)
  | .die msg, _ => .error msg

def iblock (inum : ℕ) : ℕ := Superblock.mkfs.iblock inum

def winode (inum : ℕ) (ip : Dinode) : Code Unit := do
  let buf ← rsect (iblock inum)
  wsect (iblock inum) (writeDinode buf (inum % ipb) ip)

def rinode (inum : ℕ) : Code Dinode := do
  let buf ← rsect (iblock inum)
  return readDinode buf (inum % ipb)

def ialloc (type : BitVec 16) : Code ℕ := do
  let inum ← nextInode
  winode inum { Dinode.zero with type := type, nlink := 1, size := 0 }
  return inum

/-- The free bit map with the first `used` blocks marked. -/
def bitmap (used : ℕ) : Block := (List.range used).foldl Bytes.setBit fun _ => 0

def balloc (used : ℕ) : Code Unit :=
  if used < bpb then wsect Superblock.mkfs.bmapstart (bitmap used) else die "used < BPB"

/-- `din.addrs[k]`, which gets the next block if there is none. -/
def appendAddr (din : Dinode) (k : ℕ) : Code Dinode :=
  if din.addr k = 0 then do
    let b ← nextBlock
    return din.setAddr k b
  else return din

/-- The block `x` with index `fbn` of the file in `iappend`. -/
def appendBlock (din : Dinode) (fbn : ℕ) : Code (ℕ × Dinode) :=
  if fbn < ndirect then do
    let din ← appendAddr din fbn
    return (din.addr fbn, din)
  else do
    let din ← appendAddr din ndirect
    let indirect ← rsect (din.addr ndirect)
    if indirect.getLE (4 * (fbn - ndirect)) 4 = 0 then do
      let b ← nextBlock
      let indirect := indirect.setLE (4 * (fbn - ndirect)) 4 b
      wsect (din.addr ndirect) indirect
      return (indirect.getLE (4 * (fbn - ndirect)) 4, din)
    else return (indirect.getLE (4 * (fbn - ndirect)) 4, din)

/-- The loop of `iappend`, where `p` are the bytes still to be written. Every round writes one or
more. -/
def appendLoop : ℕ → List UInt8 → Dinode → ℕ → Code (ℕ × Dinode)
  | 0, _, din, off => return (off, din)
  | fuel + 1, p, din, off =>
    if 0 < p.length then
      let fbn := off / bsize
      if fbn < maxFile then do
        let (x, din) ← appendBlock din fbn
        let n1 := min p.length ((fbn + 1) * bsize - off)
        let buf ← rsect x
        wsect x (buf.blit (off - fbn * bsize) (p.take n1))
        appendLoop fuel (p.drop n1) din (off + n1)
      else die "fbn < MAXFILE"
    else return (off, din)

def iappend (inum : ℕ) (p : List UInt8) : Code Unit := do
  let din ← rinode inum
  let (off, din) ← appendLoop p.length p din din.size.toNat
  winode inum { din with size := BitVec.ofNat 32 off }

def appendAll (inum : ℕ) : List (List UInt8) → Code Unit
  | [] => return
  | p :: ps => do
    iappend inum p
    appendAll inum ps

/-- A file on the command line: its path, and what the calls of `read` return before the end of the
file. -/
structure Input where
  path : Str
  path_text : 0 ∉ path
  reads : List (List UInt8)
  read_size : ∀ p ∈ reads, 0 < p.length ∧ p.length ≤ bsize

def Input.content (a : Input) : List UInt8 := a.reads.flatten

/-- The path without `user/`. -/
def Input.basename (a : Input) : Str :=
  if strncmp a.path (lit "user/") 5 = 0 then a.path.drop 5 else a.path

/-- The base name without a leading underscore. -/
def Input.shortname (a : Input) : Str :=
  if a.basename.headD 0 = 95 then a.basename.drop 1 else a.basename

def addFiles (rootino : ℕ) : List Input → Code Unit
  | [] => return
  | a :: as =>
    if 47 ∈ a.basename then die "index(shortname, '/') == 0"
    else if dirsiz < a.shortname.length then die "strlen(shortname) <= DIRSIZ"
    else do
      let inum ← ialloc tFile
      iappend rootino (Dirent.encode inum a.shortname)
      appendAll inum a.reads
      addFiles rootino as

def clear : List ℕ → Code Unit
  | [] => return
  | i :: is => do
    wsect i fun _ => 0
    clear is

def fsmagic : ℕ := 0x10203040

def superblock : Block :=
  Bytes.setWords (fun _ => 0) 0 [fsmagic, fssize, fssize - nmeta, ninodes, nlog, 2, 2 + nlog,
    2 + nlog + ninodeblocks]

@[irreducible] def main (args : List Input) : Code Unit := do
  clear (List.range fssize)
  wsect 1 superblock
  let rootino ← ialloc tDir
  if rootino ≠ rootIno then die "rootino == ROOTINO"
  else
    iappend rootino (Dirent.encode rootino (lit "."))
    iappend rootino (Dirent.encode rootino (lit ".."))
    addFiles rootino args
    let din ← rinode rootino
    winode rootino { din with size := BitVec.ofNat 32 ((din.size.toNat / bsize + 1) * bsize) }
    let used ← getFreeblock
    balloc used

/-- The image file is empty and the variables have their initial values. -/
def State.start : State := ⟨0, fun _ _ => 0, 1, nmeta⟩

end Xv6.Mkfs
