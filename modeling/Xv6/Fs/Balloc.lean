import Xv6.Fs.Ownership
import Xv6.Fs.View

/-! `balloc` hands out references to blocks. -/
namespace Xv6.Fs

open Bio Lib

variable {sb : Superblock} {ino : ℕ → Dinode} {extra : ℕ → ℕ} {v : View} {a b x : ℕ}

/-- Block `a` marked used and zeroed. -/
def View.allocated (v : View) (sb : Superblock) (a : ℕ) : View :=
  (v.set (sb.bblock a) ((v.blocks (sb.bblock a)).setBit (a % bpb))).set a fun _ => 0

@[simp] theorem View.held_allocated : (v.allocated sb a).held = v.held := rfl

theorem View.blocks_allocated_self : (v.allocated sb a).blocks a = fun _ => 0 := by
  simp [View.allocated]

theorem View.blocks_allocated_of_ne (hxa : x ≠ a) (hx : x < sb.bmapstart ∨ sb.dataStart ≤ x)
    (ha : sb.InData a) : (v.allocated sb a).blocks x = v.blocks x := by
  have hb : x ≠ sb.bblock a := by
    have := bblock_lt ha.2
    have : sb.bmapstart ≤ sb.bblock a := le_bblock
    omega
  simp [View.allocated, hxa, hb]

theorem div_mod_bpb_inj : x / bpb = a / bpb ∧ x % bpb = a % bpb ↔ x = a := by
  constructor
  · rintro ⟨h₁, h₂⟩
    rw [← Nat.div_add_mod x bpb, h₁, h₂, Nat.div_add_mod]
  · rintro rfl
    exact ⟨rfl, rfl⟩

theorem bblock_inj : sb.bblock x = sb.bblock a ↔ x / bpb = a / bpb := by
  unfold Superblock.bblock
  omega

theorem bit_lt : a % bpb / 8 < bsize := by
  have := Nat.mod_lt a (by decide : 0 < bpb)
  rw [bpb_eq] at *
  rw [bsize_eq]
  omega

theorem used_allocated (hx : x < sb.size) (ha : sb.InData a) :
    used sb (v.allocated sb a).blocks x = (decide (x = a) || used sb v.blocks x) := by
  have hxa : sb.bblock x ≠ a := by
    have := bblock_lt hx
    have := ha.1
    omega
  unfold used View.allocated
  rw [View.blocks_set, View.blocks_set, Function.update_of_ne hxa, Function.update_apply]
  split_ifs with hb
  · rw [Bytes.testBit_setBit bit_lt, hb]
    congr 1
    rw [decide_eq_decide, ← div_mod_bpb_inj (x := x), and_iff_right (bblock_inj.mp hb)]
  · have : x ≠ a := by
      rintro rfl
      exact hb rfl
    simp [this]

theorem Owned.of_indirect {blocks : Disk} {i : ℕ} (h : Owned sb ino extra blocks)
    (hi : i < sb.ninodes) (ht : (ino i).type ≠ 0) (h0 : (ino i).addr ndirect ≠ 0) :
    sb.InData ((ino i).addr ndirect) ∧ used sb blocks ((ino i).addr ndirect) = true :=
  h.of_ref hi ht (p := ndirect) (by decide) (by simp [ref]) h0

theorem Owned.allocated (h : Owned sb ino extra v.blocks) (hsb : sb.Valid) (ha : sb.InData a)
    (hu : used sb v.blocks a = false) :
    Owned sb ino (more extra a) (v.allocated sb a).blocks := by
  constructor
  · intro b hb
    have hcount : refCount sb ino (v.allocated sb a).blocks b = refCount sb ino v.blocks b := by
      apply refCount_congr
      intro i hi ht h0
      obtain ⟨hd, hui⟩ := h.of_indirect hi ht h0
      apply View.blocks_allocated_of_ne _ (Or.inr hd.1) ha
      intro he
      rw [he, hu] at hui
      exact absurd hui (by simp)
    have hc := h.count b hb
    rw [hcount, more, ← Nat.add_assoc, hc]
    by_cases hba : b = a
    · subst hba
      simp [ha, hu, used_allocated ha.2 ha]
    · by_cases hd : sb.InData b
      · simp [hba, hd, used_allocated hd.2 ha]
      · simp [hba, hd]
  · intro b hb
    rw [used_allocated (hb.trans_le hsb.data) ha, h.reserved b hb, Bool.or_true]

theorem freeBit_some {data : Block} {n bi : ℕ} (h : freeBit data n = some bi) :
    bi < n ∧ data.testBit bi = false := by
  have h₁ := List.mem_of_find?_eq_some h
  have h₂ := List.find?_some h
  exact ⟨List.mem_range.mp h₁, by simpa using h₂⟩

theorem freeBit_none {data : Block} {n bi : ℕ} (h : freeBit data n = none) (hbi : bi < n) :
    data.testBit bi = true := by
  have := List.find?_eq_none.mp h bi (List.mem_range.mpr hbi)
  simpa using this

theorem bzero_spec (h : v.held b = false) :
    (bzero b).Returns viewInterp (fun _ w => w = v.set b fun _ => 0) v := by
  unfold bzero
  apply returns_bread h
  rw [← Prog.bind_ret_unit (brelse b)]
  apply returns_update h
  exact .ret rfl

/-- `balloc` finds a free block or leaves everything as it is. -/
def Balloc (sb : Superblock) (v : View) (addr : ℕ) (w : View) : Prop :=
  addr = 0 ∧ w = v ∨
    sb.InData addr ∧ used sb v.blocks addr = false ∧ w = v.allocated sb addr

/-- `balloc` marks and clears the first free block, or there is none. -/
theorem ballocFrom_spec (ho : Owned sb ino extra v.blocks)
    (hheld : ∀ x, v.held x = true → sb.InData x ∧ used sb v.blocks x = true) (bs : List ℕ)
    (hbs : ∀ b ∈ bs, b % bpb = 0 ∧ b < sb.size) :
    (ballocFrom sb bs).Returns viewInterp (fun addr w => Balloc sb v addr w ∧
      (addr = 0 → ∀ b ∈ bs, ∀ x < sb.size, x / bpb = b / bpb → used sb v.blocks x = true)) v := by
  induction bs with
  | nil => exact .ret ⟨Or.inl ⟨rfl, rfl⟩, fun _ b hb => absurd hb List.not_mem_nil⟩
  | cons b bs ih =>
    obtain ⟨hb0, hb⟩ := hbs b List.mem_cons_self
    have hbm : v.held (sb.bblock b) = false := by
      rw [← Bool.not_eq_true]
      intro hh
      have := (hheld _ hh).1.1
      have := bblock_lt hb
      omega
    rw [ballocFrom]
    apply returns_bread hbm
    cases hf : freeBit (v.blocks (sb.bblock b)) (min bpb (sb.size - b)) with
    | none =>
      simp only
      apply returns_release hbm
      refine (ih fun x hx => hbs x (List.mem_cons_of_mem b hx)).mono ?_
      rintro addr w ⟨hw, hfull⟩
      refine ⟨hw, fun h0 b' hb' x hx hdiv => ?_⟩
      rcases List.mem_cons.mp hb' with rfl | hb'
      · rw [used, bblock_inj.mpr hdiv]
        apply freeBit_none hf
        rw [bpb_eq] at *
        omega
      · exact hfull h0 b' hb' x hx hdiv
    | some bi =>
      obtain ⟨hbi, hclear⟩ := freeBit_some hf
      have hdiv : (b + bi) / bpb = b / bpb := by
        rw [bpb_eq] at *
        omega
      have hmod : (b + bi) % bpb = bi := by
        rw [bpb_eq] at *
        omega
      have hblock : sb.bblock (b + bi) = sb.bblock b := bblock_inj.mpr hdiv
      have hu : used sb v.blocks (b + bi) = false := by rw [used, hblock, hmod, hclear]
      have hdata : sb.InData (b + bi) := by
        refine ⟨?_, by omega⟩
        by_contra hlt
        rw [ho.reserved _ (by omega)] at hu
        exact absurd hu (by simp)
      have hfree : v.held (b + bi) = false := by
        rw [← Bool.not_eq_true]
        intro hh
        rw [(hheld _ hh).2] at hu
        exact absurd hu (by simp)
      simp only
      apply returns_update hbm
      refine (bzero_spec (by simpa using hfree)).bind ?_
      rintro _ _ rfl
      refine .ret ⟨Or.inr ⟨hdata, hu, by rw [View.allocated, hblock, hmod]⟩, fun h0 => ?_⟩
      have hpos : 0 < b + bi := lt_of_lt_of_le (Nat.succ_pos _) hdata.1
      exact absurd h0 hpos.ne'

theorem mem_bitmaps {b : ℕ}
    (hb : b ∈ (List.range ((sb.size + bpb - 1) / bpb)).map (· * bpb)) : b % bpb = 0 ∧ b < sb.size := by
  obtain ⟨m, hm, rfl⟩ := List.mem_map.mp hb
  rw [List.mem_range] at hm
  rw [bpb_eq] at *
  omega

theorem balloc_spec (ho : Owned sb ino extra v.blocks)
    (hheld : ∀ x, v.held x = true → sb.InData x ∧ used sb v.blocks x = true) :
    (balloc sb).Returns viewInterp (Balloc sb v) v :=
  (ballocFrom_spec ho hheld _ fun _ hb => mem_bitmaps hb).mono fun _ _ h => h.1

theorem balloc_full (ho : Owned sb ino extra v.blocks)
    (hheld : ∀ x, v.held x = true → sb.InData x ∧ used sb v.blocks x = true) :
    (balloc sb).Returns viewInterp (fun addr _ => addr = 0 → Full sb v.blocks) v := by
  refine (ballocFrom_spec ho hheld _ fun _ hb => mem_bitmaps hb).mono ?_
  rintro addr w ⟨-, hfull⟩ h0 x hx
  have hlt := hx.2
  refine hfull h0 (x / bpb * bpb) (List.mem_map.mpr ⟨x / bpb, ?_, rfl⟩) x hlt ?_
  · rw [List.mem_range]
    rw [bpb_eq] at *
    omega
  · rw [bpb_eq] at *
    omega

end Xv6.Fs
