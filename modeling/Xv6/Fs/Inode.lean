import Xv6.Fs.Writei

/-! `iupdate` and `writei` on a consistent file system. -/
namespace Xv6.Fs

open Bio Lib

variable {sb : Superblock} {ino D : ℕ → Dinode} {extra : ℕ → ℕ} {i j k b p : ℕ} {src : Src}
  {v w : View} {ip ip' d : Dinode} {off n tot top : ℕ} {blocks : Disk}

def View.updated (v : View) (sb : Superblock) (i : ℕ) (ip : Dinode) : View :=
  v.set (sb.iblock i) (writeDinode (v.blocks (sb.iblock i)) (i % ipb) ip)

@[simp] theorem View.held_updated : (v.updated sb i ip).held = v.held := rfl

theorem inode_updated : inode sb (v.updated sb i ip).blocks = Function.update (inode sb v.blocks) i ip := by
  funext j
  unfold inode View.updated
  rw [View.blocks_set]
  by_cases hb : sb.iblock j = sb.iblock i
  · rw [hb, Function.update_self]
    by_cases hji : j = i
    · subst hji
      rw [Function.update_self, readDinode_writeDinode _ (Nat.mod_lt _ (by decide))]
    · rw [Function.update_of_ne hji, readDinode_writeDinode_of_ne, hb]
      intro hmod
      have hdiv : j / ipb = i / ipb := by
        unfold Superblock.iblock at hb
        omega
      exact hji (by rw [← Nat.div_add_mod j ipb, hdiv, hmod, Nat.div_add_mod])
  · have hji : j ≠ i := by
      rintro rfl
      exact hb rfl
    rw [Function.update_of_ne hb, Function.update_of_ne hji]

theorem View.blocks_updated_of_le (hsb : sb.Valid) (hi : i < sb.ninodes) {x : ℕ}
    (hx : sb.bmapstart ≤ x) : (v.updated sb i ip).blocks x = v.blocks x := by
  have := iblock_lt hsb hi
  rw [View.updated, View.blocks_set, Function.update_of_ne (by omega)]

theorem Owned.updated (h : Owned sb (Function.update (inode sb v.blocks) i ip) extra v.blocks)
    (hsb : sb.Valid) (hi : i < sb.ninodes) :
    Owned sb (inode sb (v.updated sb i ip).blocks) extra (v.updated sb i ip).blocks := by
  rw [inode_updated]
  apply h.congr _ _ hsb
  · intro x _
    unfold used
    rw [View.blocks_updated_of_le hsb hi le_bblock]
  · intro j hj ht hn
    have := (h.of_indirect hj ht hn).1.1
    have : sb.bmapstart < sb.dataStart := bmapstart_lt_dataStart
    exact View.blocks_updated_of_le hsb hi (by omega)

/-- A file keeps its blocks and bytes when blocks that it does not have change. -/
theorem ref_updated (h : Owned sb ino extra v.blocks) (hsb : sb.Valid) (hi : i < sb.ninodes)
    (hj : j < sb.ninodes) (ht : (ino j).type ≠ 0) (p : ℕ) :
    ref (v.updated sb i ip).blocks (ino j) p = ref v.blocks (ino j) p := by
  apply ref_congr
  intro hn
  have := (h.of_indirect hj ht hn).1.1
  have : sb.bmapstart < sb.dataStart := bmapstart_lt_dataStart
  exact View.blocks_updated_of_le hsb hi (by omega)

theorem iupdate_spec (i : ℕ) (ip : Dinode) (hfree : v.Free) :
    (iupdate sb i ip).Returns viewInterp (fun _ w => w = v.updated sb i ip) v := by
  unfold iupdate
  apply returns_bread (hfree _)
  rw [← Prog.bind_ret_unit (brelse _)]
  apply returns_update (hfree _)
  exact .ret rfl

theorem readInode_spec (i : ℕ) (hfree : v.Free) :
    (readInode sb i).Returns viewInterp (fun r w => r = inode sb v.blocks i ∧ w = v) v := by
  unfold readInode
  apply returns_bread (hfree _)
  apply returns_release (hfree _)
  exact .ret ⟨rfl, rfl⟩

section Ialloc

theorem refsOf_zero (type : BitVec 16) (hb : b ≠ 0) :
    refsOf blocks { Dinode.zero with type := type } b = 0 := by
  have haddr : ∀ k, Dinode.addr { Dinode.zero with type := type } k = 0 := Dinode.addr_zero
  have href : ∀ p, ref blocks { Dinode.zero with type := type } p = 0 := by
    intro p
    unfold ref
    rw [haddr, haddr, if_pos rfl, ite_self]
  rw [refsOf]
  split_ifs
  · rfl
  · rw [List.countP_eq_zero]
    intro p _
    simp [href, hb.symm]

theorem Owned.ialloc (h : Owned sb ino extra blocks) (hsb : sb.Valid) (hi : i < sb.ninodes)
    (ht : (ino i).type = 0) (type : BitVec 16) :
    Owned sb (Function.update ino i { Dinode.zero with type := type }) extra blocks := by
  apply h.move extra hi hsb
  intro b hb
  rw [refsOf_zero type hb, refsOf, if_pos ht]

end Ialloc

section Writei

/-- What a call of `writei` that got as far as its loop has done: `tot` bytes are written at `off`,
no byte before `off` or from `top` on has changed, and no other file. -/
structure FileWritten (sb : Superblock) (i : ℕ) (src : Src) (v : View) (ip : Dinode) (off n : ℕ)
    (w : View) (ip' : Dinode) (tot top : ℕ) : Prop where
  free : w.Free
  same : ip' = { ip with size := ip'.size, addrs := ip'.addrs }
  start : off ≤ ip.size.toNat
  size : ip'.size.toNat = max ip.size.toNat (off + tot)
  inodes : ∀ j < sb.ninodes, inode sb w.blocks j = Function.update (inode sb v.blocks) i ip' j
  owned : Owned sb (inode sb w.blocks) noExtra w.blocks
  mapped : Mapped w.blocks ip'
  tot_le : tot ≤ n
  le_top : off + tot ≤ top
  top_le : top ≤ off + n
  old : ∀ x < ip.size.toNat, x < off ∨ top ≤ x → byteAt w.blocks ip' x = byteAt v.blocks ip x
  new : ∀ j < tot, ∀ mem, src = .kernel mem → byteAt w.blocks ip' (off + j) = mem j
  refs : ∀ j < sb.ninodes, j ≠ i → (inode sb v.blocks j).type ≠ 0 → ∀ k,
    blockOf w.blocks (inode sb v.blocks j) k = blockOf v.blocks (inode sb v.blocks j) k
  others : ∀ j < sb.ninodes, j ≠ i → (inode sb v.blocks j).type ≠ 0 → ∀ x, x / bsize < maxFile →
    blockOf v.blocks (inode sb v.blocks j) (x / bsize) ≠ 0 →
      byteAt w.blocks (inode sb v.blocks j) x = byteAt v.blocks (inode sb v.blocks j) x
  clean : NoPartialCopy src off n → top = off + tot

theorem byteAt_updated (ip : Dinode) (h : Owned sb ino extra v.blocks) (hsb : sb.Valid) (hi : i < sb.ninodes)
    (hj : j < sb.ninodes) (ht : (ino j).type ≠ 0) {x : ℕ} (hk : x / bsize < maxFile)
    (h0 : blockOf v.blocks (ino j) (x / bsize) ≠ 0) :
    byteAt (v.updated sb i ip).blocks (ino j) x = byteAt v.blocks (ino j) x := by
  obtain ⟨hd, -⟩ := h.of_ref hj ht (refPos_lt hk) rfl h0
  have : sb.bmapstart < sb.dataStart := bmapstart_lt_dataStart
  unfold byteAt
  rw [blockOf, ref_updated h hsb hi hj ht, View.blocks_updated_of_le hsb hi (by have := hd.1; omega)]
  rfl

theorem ref_congr_addrs {d' : Dinode} (h : d'.addrs = d.addrs) :
    ref blocks d' p = ref blocks d p := by
  unfold ref Dinode.addr
  rw [h]

theorem refsOf_congr_addrs {d' : Dinode} (h : d'.addrs = d.addrs) (ht : d'.type = d.type) :
    refsOf blocks d' b = refsOf blocks d b := by
  unfold refsOf
  simp only [ref_congr_addrs h, ht]

theorem byteAt_congr_addrs {d' : Dinode} (h : d'.addrs = d.addrs) {x : ℕ} :
    byteAt blocks d' x = byteAt blocks d x := by
  unfold byteAt blockOf
  rw [ref_congr_addrs h]

theorem setSize_spec {ip₁ : Dinode} (hs : ip' = { ip with addrs := ip'.addrs })
    (hend : off + tot ≤ maxFile * bsize)
    (h : ip₁ = if off + tot > ip'.size.toNat then
      { ip' with size := BitVec.ofNat 32 (off + tot) } else ip') :
    ip₁ = { ip with size := ip₁.size, addrs := ip₁.addrs } ∧
      ip₁.size.toNat = max ip.size.toNat (off + tot) := by
  have hsize : ip'.size = ip.size := by rw [hs]
  have hmax : maxFile * bsize < 2 ^ 32 := by decide
  rw [hsize] at h
  split_ifs at h with hlt
  · rw [h]
    refine ⟨by rw [hs], ?_⟩
    rw [BitVec.toNat_ofNat, Nat.mod_eq_of_lt (by omega)]
    omega
  · rw [h]
    refine ⟨?_, by rw [hsize]; omega⟩
    rw [hsize, hs]

theorem Written.fileWritten {u : View} {ip₁ : Dinode} (hsb : sb.Valid) (hi : i < sb.ninodes)
    (ht : ip.type ≠ 0) (hfree : v.Free)
    (ho : Owned sb (Function.update (inode sb v.blocks) i ip) noExtra v.blocks)
    (hmi : Mapped v.blocks ip)
    (hw : Written sb (inode sb v.blocks) i src v ip off u ip' tot top) (hoff : off ≤ ip.size.toNat)
    (hend : off + tot ≤ maxFile * bsize)
    (hip₁ : ip₁ = if off + tot > ip'.size.toNat then { ip' with size := BitVec.ofNat 32 (off + tot) }
      else ip') (htot : tot ≤ n) (hle : off + tot ≤ top) (htop : top ≤ off + n)
    (hclean : NoPartialCopy src off n → top = off + tot) :
    FileWritten sb i src v ip off n (u.updated sb i ip₁) ip₁ tot top := by
  obtain ⟨hsame, hsize₁⟩ := setSize_spec hw.same hend hip₁
  have haddrs : ip₁.addrs = ip'.addrs := by
    rw [hip₁]
    split_ifs <;> rfl
  have ht₁ : ip₁.type ≠ 0 := by rwa [hsame]
  have hinode : ∀ j < sb.ninodes, inode sb u.blocks j = inode sb v.blocks j := by
    intro j hj
    unfold inode
    rw [hw.low _ (iblock_lt hsb hj)]
  have hother : ∀ j < sb.ninodes, j ≠ i →
      Function.update (inode sb u.blocks) i ip₁ j = inode sb v.blocks j := by
    intro j hj hji
    rw [Function.update_of_ne hji, hinode j hj]
  have hself : Function.update (inode sb u.blocks) i ip₁ i = ip₁ := by
    rw [Function.update_self]
  have hown : Owned sb (Function.update (inode sb u.blocks) i ip₁) noExtra u.blocks := by
    have hmove := hw.owned.move noExtra (d := ip₁) hi hsb fun b _ => by
      rw [Function.update_self, refsOf_congr_addrs haddrs (by rw [hsame, hw.same])]
    rw [Function.update_idem] at hmove
    apply hmove.congr_ino
    intro j hj
    rw [Function.update_apply, Function.update_apply, hinode j hj]
  have hmapped : Mapped u.blocks ip₁ := by
    intro k hk
    rw [blockOf, ref_congr_addrs haddrs]
    by_cases hold : k * bsize < ip.size.toNat
    · obtain ⟨hkm, h0⟩ := hmi k hold
      exact ⟨hkm, by rw [hw.refs _ h0]; exact h0⟩
    · have hnew := hw.new (k * bsize - off) (by omega)
      rw [show off + (k * bsize - off) = k * bsize by omega,
        Nat.mul_div_cancel _ (by decide : 0 < bsize)] at hnew
      exact ⟨hnew.1, hnew.2.1⟩
  have ht' : ip'.type ≠ 0 := by rwa [hw.type]
  have hrefs : ∀ j < sb.ninodes, j ≠ i → (inode sb v.blocks j).type ≠ 0 → ∀ k,
      blockOf (u.updated sb i ip₁).blocks (inode sb v.blocks j) k =
        blockOf v.blocks (inode sb v.blocks j) k := by
    intro j hj hji htj k
    have hup : ref (u.updated sb i ip₁).blocks (Function.update (inode sb u.blocks) i ip₁ j) (refPos k) = _ :=
      ref_updated hown hsb hi hj (by rwa [hother j hj hji]) _
    rw [hother j hj hji] at hup
    exact hup.trans (hw.other_ref ho hi ht' hj hji htj _)
  have hfu : u.Free := by
    intro x
    rw [hw.held, hfree x]
  refine ⟨hfu, hsame, hoff, hsize₁, fun j hj => ?_,
    hown.updated hsb hi, fun k hk => ?_, htot, hle, htop, fun x hx hxo => ?_,
    fun j hj mem hsrc => ?_, hrefs, fun j hj hji htj x hk h0 => ?_, hclean⟩
  · rw [inode_updated, Function.update_apply, Function.update_apply, hinode j hj]
  · have hup : ref (u.updated sb i ip₁).blocks (Function.update (inode sb u.blocks) i ip₁ i) (refPos k) = _ :=
      ref_updated hown hsb hi hi (by rwa [hself]) _
    rw [hself] at hup
    rw [blockOf, hup]
    exact hmapped k hk
  · obtain ⟨hk, h0⟩ := hmi.at hx
    have hb := byteAt_updated (j := i) (x := x) ip₁ hown hsb hi hi (by rwa [hself]) hk
      (by rw [hself, blockOf, ref_congr_addrs haddrs, hw.refs _ h0]; exact h0)
    rw [hself] at hb
    rw [hb, byteAt_congr_addrs haddrs, hw.old x hk h0 hxo]
  · obtain ⟨hk, h0, hbyte⟩ := hw.new j hj
    have hb := byteAt_updated (j := i) (x := off + j) ip₁ hown hsb hi hi (by rwa [hself]) hk
      (by rwa [hself, blockOf, ref_congr_addrs haddrs])
    rw [hself] at hb
    rw [hb, byteAt_congr_addrs haddrs, hbyte mem hsrc]
  · have hb := byteAt_updated (j := j) (x := x) ip₁ hown hsb hi hj
      (by rwa [hother j hj hji]) hk
      (by rwa [hother j hj hji, blockOf, hw.other_ref ho hi ht' hj hji htj])
    rw [hother j hj hji] at hb
    rw [hb, hw.other_byte ho hi ht' hj hji htj hk h0]

/-- `writei` refuses, or it writes to the blocks of the file and to nothing else. -/
theorem writei_spec (hsb : sb.Valid) (hi : i < sb.ninodes) (ht : ip.type ≠ 0) (hfree : v.Free)
    (ho : Owned sb (Function.update (inode sb v.blocks) i ip) noExtra v.blocks)
    (hm : Mapped v.blocks ip) (src : Src) (off : ℕ)
    (hn : n < 2 ^ 32) :
    (writei sb i ip src off n).Returns viewInterp
      (fun r w => r = (-1, ip) ∧ w = v ∨ ∃ tot top : ℕ, r.1 = tot ∧
        FileWritten sb i src v ip off n w r.2 tot top) v := by
  have hsize := ip.size.isLt
  unfold writei
  split_ifs with hoff hmax
  · exact .ret (Or.inl ⟨rfl, rfl⟩)
  · exact .ret (Or.inl ⟨rfl, rfl⟩)
  have hmod : (off + n) % 2 ^ 32 = off + n := by omega
  rw [hmod] at hmax
  refine (writeiLoop_spec hsb hi ht hfree (by omega) n (Written.refl src off ho) (by omega)
    (Nat.zero_le n) (fun _ => Or.inl rfl)).bind ?_
  rintro ⟨tot, off', ip'⟩ u ⟨hoff', htot, top, hw, hle, htop, hclean⟩
  simp only at hoff' htot hw hle htop hclean ⊢
  subst hoff'
  have hfu : u.Free := by
    intro x
    rw [hw.held, hfree x]
  refine (iupdate_spec i _ hfu).bind ?_
  rintro _ _ rfl
  exact .ret (Or.inr ⟨tot, top, rfl,
    hw.fileWritten hsb hi ht hfree ho hm (by omega) (by omega) rfl htot hle htop hclean⟩)

end Writei

end Xv6.Fs
