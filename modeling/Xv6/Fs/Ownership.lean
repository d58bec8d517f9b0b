import Xv6.Fs.Layout
import Xv6.Lib.Count

/-! Which inode owns which block. A block of the data area is marked used exactly if there is one
reference to it. -/
namespace Xv6.Fs

open Lib

def nref : ℕ := ndirect + 1 + nindirect

theorem nref_eq : nref = 269 := rfl

/-- Reference `p` of an inode: `addrs[p]`, and after these the entries of the indirect block. -/
def ref (blocks : Disk) (d : Dinode) (p : ℕ) : ℕ :=
  if p ≤ ndirect then d.addr p
  else if d.addr ndirect = 0 then 0
  else (blocks (d.addr ndirect)).getLE (4 * (p - (ndirect + 1))) 4

/-- Where the reference to the block with index `bn` of a file is. -/
def refPos (bn : ℕ) : ℕ := if bn < ndirect then bn else bn + 1

/-- The block with index `bn` of a file, `0` if there is none. -/
def blockOf (blocks : Disk) (d : Dinode) (bn : ℕ) : ℕ := ref blocks d (refPos bn)

/-- How often an inode references block `b`. A free inode has no references. -/
def refsOf (blocks : Disk) (d : Dinode) (b : ℕ) : ℕ :=
  if d.type = 0 then 0 else (List.range nref).countP fun p => ref blocks d p = b

/-- How often the inodes `ino` reference block `b`. -/
def refCount (sb : Superblock) (ino : ℕ → Dinode) (blocks : Disk) (b : ℕ) : ℕ :=
  ∑ i ∈ Finset.range sb.ninodes, refsOf blocks (ino i) b

def Superblock.InData (sb : Superblock) (b : ℕ) : Prop := sb.dataStart ≤ b ∧ b < sb.size

instance (sb : Superblock) (b : ℕ) : Decidable (sb.InData b) := inferInstanceAs (Decidable (_ ∧ _))

/-- A block of the data area is referenced once if it is marked used and not at all if not, other
blocks are not referenced, and these are marked used. `ino` are the inodes, where the one being
worked on is taken from memory, and `extra` are references that only the running code has. -/
structure Owned (sb : Superblock) (ino : ℕ → Dinode) (extra : ℕ → ℕ) (blocks : Disk) : Prop where
  count : ∀ b, b ≠ 0 → refCount sb ino blocks b + extra b =
    if sb.InData b ∧ used sb blocks b = true then 1 else 0
  reserved : ∀ b, b < sb.dataStart → used sb blocks b = true

def Full (sb : Superblock) (blocks : Disk) : Prop := ∀ b, sb.InData b → used sb blocks b = true

def more (extra : ℕ → ℕ) (b : ℕ) : ℕ → ℕ := fun x => extra x + if x = b then 1 else 0

variable {sb : Superblock} {ino : ℕ → Dinode} {extra : ℕ → ℕ} {blocks blocks' : Disk} {d : Dinode}
  {i b p : ℕ}

theorem bmapstart_lt_dataStart : sb.bmapstart < sb.dataStart :=
  Nat.lt_succ_of_le (Nat.le_add_right _ _)

theorem bblock_lt (h : b < sb.size) : sb.bblock b < sb.dataStart := by
  have := Nat.div_le_div_right (c := bpb) h.le
  unfold Superblock.bblock Superblock.dataStart
  omega

theorem le_bblock : sb.bmapstart ≤ sb.bblock b := Nat.le_add_left _ _

theorem iblock_lt (hsb : sb.Valid) (hi : i < sb.ninodes) : sb.iblock i < sb.bmapstart := by
  have := Nat.div_le_div_right (c := ipb) hi.le
  have := hsb.inodes
  unfold Superblock.iblock
  omega

theorem ref_congr (h : d.addr ndirect ≠ 0 → blocks' (d.addr ndirect) = blocks (d.addr ndirect)) :
    ref blocks' d p = ref blocks d p := by
  unfold ref
  split_ifs with hp h0
  · rfl
  · rfl
  · rw [h h0]

theorem refsOf_congr
    (h : d.type ≠ 0 → d.addr ndirect ≠ 0 → blocks' (d.addr ndirect) = blocks (d.addr ndirect)) :
    refsOf blocks' d b = refsOf blocks d b := by
  unfold refsOf
  split_ifs with ht
  · rfl
  · simp only [ref_congr (h ht)]

theorem refCount_congr (h : ∀ i < sb.ninodes, (ino i).type ≠ 0 → (ino i).addr ndirect ≠ 0 →
    blocks' ((ino i).addr ndirect) = blocks ((ino i).addr ndirect)) :
    refCount sb ino blocks' b = refCount sb ino blocks b := by
  apply Finset.sum_congr rfl
  intro i hi
  exact refsOf_congr (h i (Finset.mem_range.mp hi))

theorem refsOf_le_refCount (ino : ℕ → Dinode) (blocks : Disk) (b : ℕ) (hi : i < sb.ninodes) :
    refsOf blocks (ino i) b ≤ refCount sb ino blocks b :=
  Finset.single_le_sum (f := fun i => refsOf blocks (ino i) b) (fun _ _ => Nat.zero_le _)
    (Finset.mem_range.mpr hi)

theorem refsOf_pos (ht : d.type ≠ 0) (hp : p < nref) (hr : ref blocks d p = b) :
    1 ≤ refsOf blocks d b := by
  rw [refsOf, if_neg ht]
  exact countP_pos_of_mem (List.mem_range.mpr hp) (by simpa using hr)

namespace Owned

theorem of_ref (h : Owned sb ino extra blocks) (hi : i < sb.ninodes) (ht : (ino i).type ≠ 0)
    (hp : p < nref) (hr : ref blocks (ino i) p = b) (hb : b ≠ 0) :
    sb.InData b ∧ used sb blocks b = true := by
  have hc := h.count b hb
  have := refsOf_pos ht hp hr
  have := refsOf_le_refCount ino blocks b hi
  by_contra hn
  rw [if_neg hn] at hc
  omega

theorem unique (h : Owned sb ino extra blocks) {j q : ℕ} (hi : i < sb.ninodes)
    (hti : (ino i).type ≠ 0) (hp : p < nref) (hj : j < sb.ninodes) (htj : (ino j).type ≠ 0)
    (hq : q < nref) (hb : ref blocks (ino i) p ≠ 0)
    (he : ref blocks (ino i) p = ref blocks (ino j) q) : i = j ∧ p = q := by
  have hc := h.count _ hb
  have hle : refCount sb ino blocks (ref blocks (ino i) p) ≤ 1 := by
    split_ifs at hc <;> omega
  by_cases hij : i = j
  · subst hij
    refine ⟨rfl, ?_⟩
    by_contra hpq
    have htwo : 2 ≤ refsOf blocks (ino i) (ref blocks (ino i) p) := by
      rw [refsOf, if_neg hti]
      exact two_le_countP (List.mem_range.mpr hp) (List.mem_range.mpr hq) hpq (by simp)
        (by simpa using he.symm)
    have := refsOf_le_refCount ino blocks (ref blocks (ino i) p) hi
    omega
  · have h₁ : 1 ≤ refsOf blocks (ino i) (ref blocks (ino i) p) := refsOf_pos hti hp rfl
    have h₂ : 1 ≤ refsOf blocks (ino j) (ref blocks (ino i) p) := refsOf_pos htj hq he.symm
    have hsum := add_le_sum (f := fun i' => refsOf blocks (ino i') (ref blocks (ino i) p))
      (Finset.mem_range.mpr hi) (Finset.mem_range.mpr hj) hij
    unfold refCount at hle
    omega

theorem congr (h : Owned sb ino extra blocks)
    (hused : ∀ b < sb.size, used sb blocks' b = used sb blocks b)
    (hind : ∀ i < sb.ninodes, (ino i).type ≠ 0 → (ino i).addr ndirect ≠ 0 →
      blocks' ((ino i).addr ndirect) = blocks ((ino i).addr ndirect)) (hsb : sb.Valid) :
    Owned sb ino extra blocks' := by
  constructor
  · intro b hb
    rw [refCount_congr hind, h.count b hb]
    by_cases hd : sb.InData b
    · rw [hused b hd.2]
    · simp [hd]
  · intro b hb
    rw [hused b (hb.trans_le hsb.data), h.reserved b hb]

theorem congr_ino (h : Owned sb ino extra blocks) {ino' : ℕ → Dinode}
    (hino : ∀ i < sb.ninodes, ino' i = ino i) : Owned sb ino' extra blocks := by
  refine ⟨fun b hb => ?_, h.reserved⟩
  rw [← h.count b hb]
  congr 1
  apply Finset.sum_congr rfl
  intro i hi
  rw [hino i (Finset.mem_range.mp hi)]

theorem change (h : Owned sb ino extra blocks) (extra' : ℕ → ℕ) (hi : i < sb.ninodes)
    (hused : ∀ b < sb.size, used sb blocks' b = used sb blocks b)
    (hind : ∀ j < sb.ninodes, j ≠ i → (ino j).type ≠ 0 → (ino j).addr ndirect ≠ 0 →
      blocks' ((ino j).addr ndirect) = blocks ((ino j).addr ndirect)) (hsb : sb.Valid)
    (hb : ∀ b, b ≠ 0 → refsOf blocks' d b + extra' b = refsOf blocks (ino i) b + extra b) :
    Owned sb (Function.update ino i d) extra' blocks' := by
  constructor
  · intro b h0
    have hsum := sum_add_eq_of_eq_off (s := Finset.range sb.ninodes)
      (f := fun j => refsOf blocks' (Function.update ino i d j) b)
      (g := fun j => refsOf blocks (ino j) b) (Finset.mem_range.mpr hi)
      (fun j hj hji => by
        rw [Function.update_of_ne hji]
        exact refsOf_congr (hind j (Finset.mem_range.mp hj) hji))
    simp only [Function.update_self] at hsum
    have hc := h.count b h0
    have := hb b h0
    have hdata : (sb.InData b ∧ used sb blocks' b = true) ↔ sb.InData b ∧ used sb blocks b = true :=
      and_congr_right fun hd => by rw [hused b hd.2]
    simp only [hdata]
    unfold refCount at *
    omega
  · intro b hb
    rw [hused b (hb.trans_le hsb.data), h.reserved b hb]

theorem move (h : Owned sb ino extra blocks) (extra' : ℕ → ℕ) (hi : i < sb.ninodes)
    (hsb : sb.Valid)
    (hb : ∀ b, b ≠ 0 → refsOf blocks d b + extra' b = refsOf blocks (ino i) b + extra b) :
    Owned sb (Function.update ino i d) extra' blocks :=
  h.change extra' hi (fun _ _ => rfl) (fun _ _ _ _ _ => rfl) hsb hb

end Owned

/-- Every block index below the size of a file is mapped. -/
def Mapped (blocks : Disk) (d : Dinode) : Prop :=
  ∀ k, k * bsize < d.size.toNat → k < maxFile ∧ blockOf blocks d k ≠ 0

def NoHoles (sb : Superblock) (ino : ℕ → Dinode) (blocks : Disk) : Prop :=
  ∀ i < sb.ninodes, (ino i).type ≠ 0 → Mapped blocks (ino i)

end Xv6.Fs
