import Xv6.Fs.Balloc

/-! `bmap` returns the block with a given index and may make the file grow. -/
namespace Xv6.Fs

open Bio Lib

variable {sb : Superblock} {D : ℕ → Dinode} {i : ℕ} {v w u : View} {ip ip' ip'' d : Dinode}
  {blocks : Disk} {a b k p bn : ℕ}

theorem Superblock.InData.ne_zero (h : sb.InData a) : a ≠ 0 := by
  have := h.1
  have : sb.bmapstart < sb.dataStart := bmapstart_lt_dataStart
  omega

theorem Superblock.InData.lt_two_pow (h : sb.InData a) (hsb : sb.Valid) : a < 2 ^ 32 := by
  have := h.2
  have := hsb.size
  omega

def noExtra : ℕ → ℕ := fun _ => 0

theorem refPos_lt (h : bn < maxFile) : refPos bn < nref := by
  rw [maxFile_eq] at h
  rw [nref_eq, refPos, ndirect_eq]
  split_ifs <;> omega

theorem refPos_inj {j k : ℕ} (h : refPos j = refPos k) : j = k := by
  unfold refPos at h
  split_ifs at h <;> omega

theorem refPos_ne_ndirect : refPos bn ≠ ndirect := by
  unfold refPos
  split_ifs <;> omega

theorem ref_of_le (h : p ≤ ndirect) : ref blocks d p = d.addr p := if_pos h

theorem ref_of_lt (h : ndirect < p) (h0 : d.addr ndirect ≠ 0) :
    ref blocks d p = (blocks (d.addr ndirect)).getLE (4 * (p - (ndirect + 1))) 4 := by
  rw [ref, if_neg (by omega), if_neg h0]

theorem ref_setAddr_of_ne (hk : k ≤ ndirect) (h0 : d.addr k = 0) (ha : a < 2 ^ 32)
    (hz : k = ndirect → blocks a = fun _ => 0) (hp : p ≠ k) :
    ref blocks (d.setAddr k a) p = ref blocks d p := by
  by_cases hpn : p ≤ ndirect
  · rw [ref_of_le hpn, ref_of_le hpn, d.addr_setAddr hk ha, if_neg hp]
  · unfold ref
    rw [if_neg hpn, if_neg hpn, d.addr_setAddr hk ha]
    by_cases hkn : k = ndirect
    · subst hkn
      rw [if_pos rfl, h0, if_pos rfl, hz rfl, Bytes.getLE_zero, ite_self]
    · rw [if_neg (Ne.symm hkn)]

theorem refsOf_setAddr (ht : d.type ≠ 0) (hk : k ≤ ndirect) (h0 : d.addr k = 0) (ha : a < 2 ^ 32)
    (hz : k = ndirect → blocks a = fun _ => 0) (hb : b ≠ 0) :
    refsOf blocks (d.setAddr k a) b = refsOf blocks d b + if b = a then 1 else 0 := by
  have hmem : k ∈ List.range nref := List.mem_range.mpr (hk.trans_lt (by decide))
  have hcount := countP_eq_of_eq_off (P := fun p => decide (ref blocks (d.setAddr k a) p = b))
    (R := fun p => decide (ref blocks d p = b)) List.nodup_range hmem
    (fun p _ hp => by rw [ref_setAddr_of_ne hk h0 ha hz hp])
  simp only [ref_of_le hk, d.addr_setAddr hk ha, if_true, h0, hb.symm, decide_false,
    Bool.toNat_false, Nat.add_zero] at hcount
  rw [refsOf, refsOf, if_neg ht, if_neg (by simpa using ht), hcount]
  congr 1
  by_cases hab : a = b
  · simp [hab]
  · simp [hab, Ne.symm hab]

theorem ref_setEntry (h0 : d.addr ndirect ≠ 0) (hp : ndirect < p) (hpn : p < nref)
    (ha : a < 2 ^ 32) (q : ℕ) :
    ref (Function.update blocks (d.addr ndirect)
      ((blocks (d.addr ndirect)).setLE (4 * (p - (ndirect + 1))) 4 a)) d q =
      if q = p then a else ref blocks d q := by
  rw [nref_eq, ndirect_eq] at *
  by_cases hq : q ≤ ndirect
  · rw [ref_of_le hq, ref_of_le hq, if_neg]
    rw [ndirect_eq] at hq
    omega
  · have hq' : 12 < q := not_le.mp hq
    rw [ref_of_lt hq' h0, ref_of_lt hq' h0, ndirect_eq, Function.update_self]
    split_ifs with hqp
    · subst hqp
      rw [Bytes.getLE_setLE_self (by rw [bsize_eq]; omega)]
      exact Nat.mod_eq_of_lt (by norm_num at ha ⊢; exact ha)
    · exact Bytes.getLE_setLE_of_disjoint (by omega)

/-- Inode `i`, whose copy in memory is `ip`, may have got more blocks. Nothing else changes. -/
structure Grown (sb : Superblock) (D : ℕ → Dinode) (i : ℕ) (v : View) (ip : Dinode) (w : View)
    (ip' : Dinode) : Prop where
  same : ip' = { ip with addrs := ip'.addrs }
  owned : Owned sb (Function.update D i ip') noExtra w.blocks
  held : w.held = v.held
  kept : ∀ x, x < sb.bmapstart ∨ sb.InData x ∧ used sb v.blocks x = true ∧ x ≠ ip'.addr ndirect →
    w.blocks x = v.blocks x
  refs : ∀ p, ref v.blocks ip p ≠ 0 → ref w.blocks ip' p = ref v.blocks ip p
  used : ∀ x < sb.size, Fs.used sb v.blocks x = true → Fs.used sb w.blocks x = true

namespace Grown

theorem refl (ho : Owned sb (Function.update D i ip) noExtra v.blocks) :
    Grown sb D i v ip v ip :=
  ⟨rfl, ho, rfl, fun _ _ => rfl, fun _ _ => rfl, fun _ _ h => h⟩

theorem type (h : Grown sb D i v ip w ip') : ip'.type = ip.type := by rw [h.same]

theorem size (h : Grown sb D i v ip w ip') : ip'.size = ip.size := by rw [h.same]

theorem addr_ndirect (h : Grown sb D i v ip w ip') (h0 : ip.addr ndirect ≠ 0) :
    ip'.addr ndirect = ip.addr ndirect := by
  have := h.refs ndirect
  rw [ref_of_le le_rfl, ref_of_le le_rfl] at this
  exact this h0

theorem trans (h₁ : Grown sb D i v ip w ip') (h₂ : Grown sb D i w ip' u ip'') :
    Grown sb D i v ip u ip'' := by
  refine ⟨?_, h₂.owned, h₂.held.trans h₁.held, ?_, ?_, fun x hx hu => h₂.used x hx (h₁.used x hx hu)⟩
  · rw [h₂.same, h₁.same]
  · rintro x (hx | ⟨hd, hu, hne⟩)
    · rw [h₂.kept x (Or.inl hx), h₁.kept x (Or.inl hx)]
    · have hne' : x ≠ ip'.addr ndirect := by
        rintro rfl
        exact hne (h₂.addr_ndirect hd.ne_zero).symm
      rw [h₂.kept x (Or.inr ⟨hd, h₁.used x hd.2 hu, hne⟩), h₁.kept x (Or.inr ⟨hd, hu, hne'⟩)]
  · intro p hp
    have h := h₁.refs p hp
    rw [h₂.refs p (by rw [h]; exact hp), h]

end Grown

theorem Owned.of_ref_self {extra : ℕ → ℕ}
    (ho : Owned sb (Function.update D i ip) extra blocks)
    (hi : i < sb.ninodes) (ht : ip.type ≠ 0) (hp : p < nref) (h0 : ref blocks ip p ≠ 0) :
    sb.InData (ref blocks ip p) ∧ used sb blocks (ref blocks ip p) = true :=
  ho.of_ref hi (by rwa [Function.update_self]) hp (by rw [Function.update_self]) h0

theorem blocks_allocated_indirect (ho : Owned sb (Function.update D i ip) noExtra v.blocks)
    (hi : i < sb.ninodes) (ht : ip.type ≠ 0) (hn : ip.addr ndirect ≠ 0) (ha : sb.InData a)
    (hu : Fs.used sb v.blocks a = false) :
    (v.allocated sb a).blocks (ip.addr ndirect) = v.blocks (ip.addr ndirect) := by
  obtain ⟨hd, hui⟩ := ho.of_indirect hi (by rwa [Function.update_self])
    (by rwa [Function.update_self])
  rw [Function.update_self] at hd hui
  apply View.blocks_allocated_of_ne _ (Or.inr hd.1) ha
  intro he
  rw [he, hu] at hui
  exact absurd hui (by simp)

theorem ref_setAddr_allocated (ho : Owned sb (Function.update D i ip) noExtra v.blocks)
    (hsb : sb.Valid) (hi : i < sb.ninodes) (ht : ip.type ≠ 0) (hk : k ≤ ndirect)
    (h0 : ip.addr k = 0) (ha : sb.InData a) (hu : Fs.used sb v.blocks a = false) (hp : p ≠ k) :
    ref (v.allocated sb a).blocks (ip.setAddr k a) p = ref v.blocks ip p := by
  rw [ref_setAddr_of_ne hk h0 (ha.lt_two_pow hsb) (fun _ => View.blocks_allocated_self) hp]
  exact ref_congr fun hn => blocks_allocated_indirect ho hi ht hn ha hu

theorem Grown.setAddr (ho : Owned sb (Function.update D i ip) noExtra v.blocks) (hsb : sb.Valid)
    (hi : i < sb.ninodes) (ht : ip.type ≠ 0) (hk : k ≤ ndirect) (h0 : ip.addr k = 0)
    (ha : sb.InData a) (hu : Fs.used sb v.blocks a = false) :
    Grown sb D i v ip (v.allocated sb a) (ip.setAddr k a) := by
  have hz : k = ndirect → (v.allocated sb a).blocks a = fun _ => 0 :=
    fun _ => View.blocks_allocated_self
  refine ⟨rfl, ?_, rfl, ?_, ?_, ?_⟩
  · have hmove := (ho.allocated hsb ha hu).move noExtra (d := ip.setAddr k a) hi hsb ?_
    · rwa [Function.update_idem] at hmove
    · intro b hb
      rw [Function.update_self, refsOf_setAddr ht hk h0 (ha.lt_two_pow hsb) hz hb]
      simp [more, noExtra]
  · rintro x (hx | ⟨hd, hux, -⟩)
    · refine View.blocks_allocated_of_ne ?_ (Or.inl hx) ha
      have := ha.1
      have : sb.bmapstart < sb.dataStart := bmapstart_lt_dataStart
      omega
    · refine View.blocks_allocated_of_ne ?_ (Or.inr hd.1) ha
      rintro rfl
      rw [hu] at hux
      exact absurd hux (by simp)
  · intro p hp
    apply ref_setAddr_allocated ho hsb hi ht hk h0 ha hu
    rintro rfl
    rw [ref_of_le hk] at hp
    exact hp h0
  · intro x hx hux
    rw [used_allocated hx ha, hux, Bool.or_true]

theorem ref_setEntry_allocated (ho : Owned sb (Function.update D i ip) noExtra v.blocks)
    (hsb : sb.Valid) (hi : i < sb.ninodes) (ht : ip.type ≠ 0) (hn : ip.addr ndirect ≠ 0)
    (hp : ndirect < p) (hpn : p < nref) (ha : sb.InData a) (hu : Fs.used sb v.blocks a = false)
    (q : ℕ) :
    ref ((v.allocated sb a).set (ip.addr ndirect)
      ((v.blocks (ip.addr ndirect)).setLE (4 * (p - (ndirect + 1))) 4 a)).blocks ip q =
      if q = p then a else ref v.blocks ip q := by
  have hind := blocks_allocated_indirect ho hi ht hn ha hu
  rw [View.blocks_set, ← hind, ref_setEntry hn hp hpn (ha.lt_two_pow hsb), ref_congr fun _ => hind]

theorem Grown.setEntry (ho : Owned sb (Function.update D i ip) noExtra v.blocks) (hsb : sb.Valid)
    (hi : i < sb.ninodes) (ht : ip.type ≠ 0) (hn : ip.addr ndirect ≠ 0) (hp : ndirect < p)
    (hpn : p < nref) (h0 : ref v.blocks ip p = 0) (ha : sb.InData a)
    (hu : Fs.used sb v.blocks a = false) :
    Grown sb D i v ip ((v.allocated sb a).set (ip.addr ndirect)
      ((v.blocks (ip.addr ndirect)).setLE (4 * (p - (ndirect + 1))) 4 a)) ip := by
  have ha32 := ha.lt_two_pow hsb
  obtain ⟨hd, hui⟩ := ho.of_indirect hi (by rwa [Function.update_self])
    (by rwa [Function.update_self])
  rw [Function.update_self] at hd hui
  have hind := blocks_allocated_indirect ho hi ht hn ha hu
  have hbit : ∀ x < sb.size, sb.bblock x ≠ ip.addr ndirect := by
    intro x hx
    have := bblock_lt hx
    have := hd.1
    omega
  have hused : ∀ x < sb.size, Fs.used sb ((v.allocated sb a).set (ip.addr ndirect)
      ((v.blocks (ip.addr ndirect)).setLE (4 * (p - (ndirect + 1))) 4 a)).blocks x =
      Fs.used sb (v.allocated sb a).blocks x := by
    intro x hx
    unfold Fs.used
    rw [View.blocks_set, Function.update_of_ne (hbit x hx)]
  have href := ref_setEntry_allocated ho hsb hi ht hn hp hpn ha hu
  refine ⟨rfl, ?_, rfl, ?_, ?_, ?_⟩
  · have hchange := (ho.allocated hsb ha hu).change noExtra (d := ip) hi hused ?_ hsb ?_
    · rwa [Function.update_idem] at hchange
    · intro j hj hji htj hnj
      rw [Function.update_of_ne hji] at htj hnj ⊢
      rw [View.blocks_set, Function.update_of_ne]
      intro he
      have hunique := ho.unique (p := ndirect) (q := ndirect) hj
        (by rwa [Function.update_of_ne hji]) (by decide) hi (by rwa [Function.update_self])
        (by decide)
      rw [Function.update_of_ne hji, Function.update_self, ref_of_le le_rfl, ref_of_le le_rfl]
        at hunique
      exact hji (hunique hnj he).1
    · intro b hb
      rw [Function.update_self, refsOf, refsOf, if_neg ht, if_neg ht]
      have hcount := countP_eq_of_eq_off (P := fun q => decide ((if q = p then a else
        ref v.blocks ip q) = b)) (R := fun q => decide (ref v.blocks ip q = b)) List.nodup_range
        (List.mem_range.mpr hpn) (fun q _ hq => by rw [if_neg hq])
      simp only [href, ref_congr fun _ => hind]
      simp only [if_true, h0, hb.symm, decide_false, Bool.toNat_false, Nat.add_zero] at hcount
      rw [hcount]
      by_cases hab : a = b
      · simp [more, noExtra, hab]
      · simp [more, noExtra, hab, Ne.symm hab]
  · rintro x (hx | ⟨hdx, hux, hxn⟩)
    · have hxi : x ≠ ip.addr ndirect := by
        have := hd.1
        have : sb.bmapstart < sb.dataStart := bmapstart_lt_dataStart
        omega
      rw [View.blocks_set, Function.update_of_ne hxi]
      refine View.blocks_allocated_of_ne ?_ (Or.inl hx) ha
      have := ha.1
      have : sb.bmapstart < sb.dataStart := bmapstart_lt_dataStart
      omega
    · rw [View.blocks_set, Function.update_of_ne hxn]
      refine View.blocks_allocated_of_ne ?_ (Or.inr hdx.1) ha
      rintro rfl
      rw [hu] at hux
      exact absurd hux (by simp)
  · intro q hq
    rw [href, if_neg]
    rintro rfl
    exact hq h0
  · intro x hx hux
    rw [hused x hx, used_allocated hx ha, hux, Bool.or_true]

theorem held_locked (hfree : v.Free)
    (hd : sb.InData a ∧ used sb v.blocks a = true) (x : ℕ) (hx : (v.lock a).held x = true) :
    sb.InData x ∧ used sb (v.lock a).blocks x = true := by
  by_cases hxa : x = a
  · rw [hxa]
    exact hd
  · simp [hxa, hfree x] at hx

theorem bmapDirect_spec (ho : Owned sb (Function.update D i ip) noExtra v.blocks) (hsb : sb.Valid)
    (hi : i < sb.ninodes) (ht : ip.type ≠ 0) (hfree : v.Free) (hk : k ≤ ndirect) :
    (bmapDirect sb ip k).Returns viewInterp
      (fun r w => Grown sb D i v ip w r.2 ∧ (r.1 ≠ 0 → r.1 = r.2.addr k)) v := by
  unfold bmapDirect
  split_ifs with h0
  · refine (balloc_spec ho fun x hx => by simp [hfree x] at hx).bind ?_
    rintro addr w (⟨rfl, rfl⟩ | ⟨hd, hu, rfl⟩)
    · exact .ret ⟨.refl ho, by simp⟩
    · rw [if_neg hd.ne_zero]
      refine .ret ⟨.setAddr ho hsb hi ht hk h0 hd hu, fun _ => ?_⟩
      rw [ip.addr_setAddr hk (hd.lt_two_pow hsb), if_pos rfl]
  · exact .ret ⟨.refl ho, fun _ => rfl⟩

theorem bmap_indirect_spec (ho : Owned sb (Function.update D i ip) noExtra v.blocks)
    (hsb : sb.Valid) (hi : i < sb.ninodes) (ht : ip.type ≠ 0) (hfree : v.Free)
    (h0 : ip.addr ndirect ≠ 0) (hp : ndirect < p) (hpn : p < nref)
    (h : ref v.blocks ip p = 0) :
    (balloc sb >>= fun addr =>
      if addr = 0 then brelse (ip.addr ndirect) >>= fun _ => Prog.ret (0, ip)
      else store (ip.addr ndirect)
          ((v.blocks (ip.addr ndirect)).setLE (4 * (p - (ndirect + 1))) 4 addr) >>= fun _ =>
        logWrite (ip.addr ndirect) >>= fun _ => brelse (ip.addr ndirect) >>= fun _ =>
          Prog.ret (addr, ip)).Returns viewInterp
      (fun r w => Grown sb D i v ip w r.2 ∧ (r.1 ≠ 0 → r.1 = ref w.blocks r.2 p))
      (v.lock (ip.addr ndirect)) := by
  have hind := ho.of_ref_self hi ht (p := ndirect) (by decide) (by rwa [ref_of_le le_rfl])
  rw [ref_of_le le_rfl] at hind
  refine (balloc_spec (v := v.lock (ip.addr ndirect)) ho (held_locked hfree hind)).bind ?_
  rintro addr w (⟨rfl, rfl⟩ | ⟨hd, hu, rfl⟩)
  · rw [if_pos rfl]
    apply returns_release (hfree _)
    exact .ret ⟨.refl ho, by simp⟩
  · rw [if_neg hd.ne_zero]
    apply returns_update (v := v.allocated sb addr) (hfree _)
    refine .ret ⟨.setEntry ho hsb hi ht h0 hp hpn h hd hu, fun _ => ?_⟩
    have hne : ip.addr ndirect ≠ addr := by
      intro he
      rw [View.blocks_lock, ← he, hind.2] at hu
      exact absurd hu (by simp)
    rw [View.blocks_set, ← View.blocks_allocated_of_ne hne (Or.inr hind.1.1) hd,
      ref_setEntry h0 hp hpn (hd.lt_two_pow hsb), if_pos rfl]

/-- `bmap` returns the block at `bn`, which it allocates if there is none and the disk is not full. -/
theorem bmap_spec (ho : Owned sb (Function.update D i ip) noExtra v.blocks) (hsb : sb.Valid)
    (hi : i < sb.ninodes) (ht : ip.type ≠ 0) (hfree : v.Free) (hbn : bn < maxFile) :
    (bmap sb ip bn).Returns viewInterp
      (fun r w => Grown sb D i v ip w r.2 ∧ (r.1 ≠ 0 → r.1 = blockOf w.blocks r.2 bn)) v := by
  unfold bmap
  by_cases hdir : bn < ndirect
  · rw [if_pos hdir]
    refine (bmapDirect_spec ho hsb hi ht hfree hdir.le).mono ?_
    rintro r w ⟨hg, hr⟩
    refine ⟨hg, fun h0 => ?_⟩
    rw [hr h0, blockOf, refPos, if_pos hdir, ref_of_le hdir.le]
  · rw [if_neg hdir, if_pos (by unfold maxFile at hbn; omega)]
    refine (bmapDirect_spec ho hsb hi ht hfree le_rfl).bind ?_
    rintro ⟨ind, ip'⟩ w ⟨hg, hr⟩
    simp only at hg hr ⊢
    by_cases hind : ind = 0
    · rw [if_pos hind]
      exact .ret ⟨hg, by simp⟩
    · obtain rfl := hr hind
      have hfw : w.Free := by rwa [View.Free, hg.held]
      have htw : ip'.type ≠ 0 := by rwa [hg.type]
      have hpos : bn - ndirect = bn + 1 - (ndirect + 1) := by omega
      have hblock : ∀ u : View, blockOf u.blocks ip' bn = ref u.blocks ip' (bn + 1) := by
        intro u
        rw [blockOf, refPos, if_neg hdir]
      rw [if_neg hind, hpos]
      apply returns_bread (hfw _)
      rw [← ref_of_lt (by omega) hind]
      split_ifs with ha
      · refine (bmap_indirect_spec hg.owned hsb hi htw hfw hind (p := bn + 1) (by omega)
          (by have := refPos_lt hbn; rwa [refPos, if_neg hdir] at this) ha).mono ?_
        rintro r u ⟨hg', hr'⟩
        refine ⟨hg.trans hg', fun h0 => ?_⟩
        rw [hr' h0, blockOf, refPos, if_neg hdir]
      · apply returns_release (hfw _)
        exact .ret ⟨hg, fun _ => (hblock w).symm⟩

theorem bmapDirect_full (ho : Owned sb (Function.update D i ip) noExtra v.blocks) (hfree : v.Free)
    (k : ℕ) :
    (bmapDirect sb ip k).Returns viewInterp (fun r w => r.1 = 0 → Full sb w.blocks) v := by
  have hheld : ∀ x, v.held x = true → sb.InData x ∧ used sb v.blocks x = true := by
    intro x hx
    rw [hfree x] at hx
    cases hx
  unfold bmapDirect
  split_ifs with h0
  · refine ((balloc_spec ho hheld).and (balloc_full ho hheld)).bind ?_
    rintro addr w ⟨hw, hfull⟩
    split_ifs with ha
    · rcases hw with ⟨-, rfl⟩ | ⟨hd, -⟩
      · exact .ret fun _ => hfull ha
      · exact absurd ha hd.ne_zero
    · exact .ret fun h => absurd h ha
  · exact .ret fun h => absurd h h0

theorem bmap_full (ho : Owned sb (Function.update D i ip) noExtra v.blocks) (hsb : sb.Valid)
    (hi : i < sb.ninodes) (ht : ip.type ≠ 0) (hfree : v.Free) (hbn : bn < maxFile) :
    (bmap sb ip bn).Returns viewInterp (fun r w => r.1 = 0 → Full sb w.blocks) v := by
  unfold bmap
  by_cases hdir : bn < ndirect
  · rw [if_pos hdir]
    exact bmapDirect_full ho hfree bn
  · rw [if_neg hdir, if_pos (by unfold maxFile at hbn; omega)]
    refine ((bmapDirect_spec ho hsb hi ht hfree le_rfl).and (bmapDirect_full ho hfree _)).bind ?_
    rintro ⟨ind, ip'⟩ w ⟨⟨hg, hr⟩, hfull⟩
    simp only at hg hr hfull ⊢
    by_cases hind : ind = 0
    · rw [if_pos hind]
      exact .ret fun _ => hfull hind
    · obtain rfl := hr hind
      have hfw : w.Free := by rwa [View.Free, hg.held]
      have hd := hg.owned.of_ref_self hi (by rwa [hg.type]) (p := ndirect) (by decide)
        (by rwa [ref_of_le le_rfl])
      rw [ref_of_le le_rfl] at hd
      have hlocked := held_locked hfw hd
      rw [if_neg hind]
      apply returns_bread (hfw _)
      split_ifs with ha
      · refine ((balloc_spec (v := w.lock (ip'.addr ndirect)) hg.owned hlocked).and
          (balloc_full hg.owned hlocked)).bind ?_
        rintro addr u ⟨hu, hfull'⟩
        split_ifs with h0
        · rcases hu with ⟨-, rfl⟩ | ⟨hd', -⟩
          · apply returns_release (hfw _)
            exact .ret fun _ => hfull' h0
          · exact absurd h0 hd'.ne_zero
        · rcases hu with ⟨h0', -⟩ | ⟨-, -, rfl⟩
          · exact absurd h0' h0
          · apply returns_update (v := w.allocated sb addr) (hfw _)
            exact .ret fun h => absurd h h0
      · apply returns_release (hfw _)
        exact .ret fun h => absurd h ha

theorem bmap_mapped (hfree : v.Free) (hbn : bn < maxFile) (hne : blockOf v.blocks ip bn ≠ 0) :
    (bmap sb ip bn).Returns readInterp
      (fun r w => r = (blockOf v.blocks ip bn, ip) ∧ w = v) v := by
  unfold bmap
  by_cases hdir : bn < ndirect
  · have hblock : blockOf v.blocks ip bn = ip.addr bn := by
      rw [blockOf, refPos, if_pos hdir, ref_of_le hdir.le]
    rw [hblock] at hne ⊢
    rw [if_pos hdir, bmapDirect, if_neg hne]
    exact .ret ⟨rfl, rfl⟩
  · have hblock : blockOf v.blocks ip bn = ref v.blocks ip (bn + 1) := by
      rw [blockOf, refPos, if_neg hdir]
    rw [hblock] at hne ⊢
    have hind : ip.addr ndirect ≠ 0 := by
      intro h0
      rw [ref, if_neg (by omega), if_pos h0] at hne
      exact hne rfl
    have hpos : bn - ndirect = bn + 1 - (ndirect + 1) := by omega
    rw [if_neg hdir, if_pos (by unfold maxFile at hbn; omega), bmapDirect, if_neg hind, hpos]
    simp only [Prog.pure_eq, Prog.ret_bind]
    rw [if_neg hind]
    apply reads_bread (hfree _)
    rw [← ref_of_lt (by omega) hind, if_neg hne]
    apply reads_release (hfree _)
    exact .ret ⟨rfl, rfl⟩

end Xv6.Fs
