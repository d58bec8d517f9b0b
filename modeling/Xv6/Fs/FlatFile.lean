import Xv6.Fs.Inode
import Xv6.Fs.Logged

/-! Files as flat arrays of bytes: what `readi` and `writei` do to the contents of a file, for
sources that can be read and destinations that can be written to. -/
namespace Xv6.Fs

open Bio Lib Vm

def content (blocks : Disk) (d : Dinode) : List UInt8 := bytesFrom blocks d 0 d.size.toNat

/-- The bytes from `off` to `off + n`, as far as there are any. -/
def flatRead (c : List UInt8) (off n : ℕ) : List UInt8 :=
  if c.length < off ∨ 2 ^ 32 ≤ off + n then [] else (c.drop off).take n

/-- The first `n` bytes of the source can be read, and they are those of `f`. -/
def Src.Bytes : Src → ℕ → (ℕ → UInt8) → Prop
  | .kernel mem, n, f => ∀ k < n, mem k = f k
  | .user u src, n, f => src + n ≤ maxVa ∧
    ∀ k < n, u.walkaddr (pgRoundDown (src + k)) ≠ 0 ∧ u.byte (src + k) = f k

variable {sb : Superblock} {i : ℕ} {src : Src} {dst : Dst} {v w : View} {ip ip' d : Dinode}
  {off n tot top : ℕ} {blocks blocks' : Disk} {f : ℕ → UInt8} {c l : List UInt8}

theorem Full.updated (h : Full sb v.blocks) (hsb : sb.Valid) (hi : i < sb.ninodes) (ip : Dinode) :
    Full sb (v.updated sb i ip).blocks := by
  intro b hb
  unfold used
  rw [View.blocks_updated_of_le hsb hi le_bblock]
  exact h b hb

end Xv6.Fs
