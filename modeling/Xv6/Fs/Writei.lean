import Xv6.Fs.Readi

/-! The loop of `writei`: which bytes it changes, and that it keeps the ownership of blocks. -/
namespace Xv6.Fs

open Bio Lib

variable {sb : Superblock} {D : ℕ → Dinode} {i : ℕ} {src : Src} {v w u : View}
  {ip ip' ip'' : Dinode} {off n m tot top : ℕ}

theorem length_eitherCopyin (src : Src) (tot m : ℕ) :
    (eitherCopyin src tot m).1.length ≤ m ∧
      ((eitherCopyin src tot m).2 = true → (eitherCopyin src tot m).1.length = m) := by
  cases src with
  | kernel mem => simp [eitherCopyin]
  | user u s => exact Vm.length_copyin u _ m

/-- No `either_copyin` of `writei` stores bytes and fails all the same. -/
def NoPartialCopy (src : Src) (off n : ℕ) : Prop :=
  ∀ tot < n, tot = 0 ∨ (off + tot) % bsize = 0 →
    (eitherCopyin src tot (min (n - tot) (bsize - (off + tot) % bsize))).2 = false →
    (eitherCopyin src tot (min (n - tot) (bsize - (off + tot) % bsize))).1 = []

theorem noPartialCopy_kernel (mem : ℕ → UInt8) (off n : ℕ) : NoPartialCopy (.kernel mem) off n := by
  intro tot _ _ h
  simp [eitherCopyin] at h

/-- Inode `i` after `tot` bytes have been written at `off`. Its blocks have changed in the bytes
from `off` to `top`; blocks that it does not have are as before. -/
structure Written (sb : Superblock) (D : ℕ → Dinode) (i : ℕ) (src : Src) (v : View) (ip : Dinode)
    (off : ℕ) (w : View) (ip' : Dinode) (tot top : ℕ) : Prop where
  same : ip' = { ip with addrs := ip'.addrs }
  owned : Owned sb (Function.update D i ip') noExtra w.blocks
  held : w.held = v.held
  low : ∀ x < sb.bmapstart, w.blocks x = v.blocks x
  other : ∀ x, sb.InData x → used sb v.blocks x = true →
    (∀ p < nref, ref w.blocks ip' p ≠ x) → w.blocks x = v.blocks x
  refs : ∀ p, ref v.blocks ip p ≠ 0 → ref w.blocks ip' p = ref v.blocks ip p
  used : ∀ x < sb.size, Fs.used sb v.blocks x = true → Fs.used sb w.blocks x = true
  old : ∀ x, x / bsize < maxFile → blockOf v.blocks ip (x / bsize) ≠ 0 → x < off ∨ top ≤ x →
    byteAt w.blocks ip' x = byteAt v.blocks ip x
  new : ∀ j < tot, (off + j) / bsize < maxFile ∧ blockOf w.blocks ip' ((off + j) / bsize) ≠ 0 ∧
    ∀ mem, src = .kernel mem → byteAt w.blocks ip' (off + j) = mem j

theorem Grown.byteAt (hg : Grown sb D i v ip w ip') (hi : i < sb.ninodes) (ht : ip.type ≠ 0)
    (ho : Owned sb (Function.update D i ip) noExtra v.blocks) {x : ℕ} (hk : x / bsize < maxFile)
    (h0 : blockOf v.blocks ip (x / bsize) ≠ 0) :
    byteAt w.blocks ip' x = byteAt v.blocks ip x := by
  have hp := refPos_lt hk
  have hblock : blockOf w.blocks ip' (x / bsize) = blockOf v.blocks ip (x / bsize) := hg.refs _ h0
  obtain ⟨hd, hu⟩ := ho.of_ref_self hi ht hp h0
  unfold Fs.byteAt
  rw [hblock, hg.kept]
  refine Or.inr ⟨hd, hu, fun he => ?_⟩
  have hself : (Function.update D i ip' i).type ≠ 0 := by rwa [Function.update_self, hg.type]
  have hunique := hg.owned.unique (p := refPos (x / bsize)) (q := ndirect) hi hself hp hi hself
    (by decide)
  rw [Function.update_self, ← blockOf, hblock, ref_of_le le_rfl] at hunique
  exact refPos_ne_ndirect (hunique h0 he).2

theorem Owned.data_ne_indirect
    (ho : Owned sb (Function.update D i ip) noExtra v.blocks) (hi : i < sb.ninodes)
    (ht : ip.type ≠ 0) {k : ℕ} (hk : k < maxFile) {j : ℕ} (hj : j < sb.ninodes)
    (htj : (Function.update D i ip j).type ≠ 0)
    (hn : (Function.update D i ip j).addr ndirect ≠ 0) :
    (Function.update D i ip j).addr ndirect ≠ blockOf v.blocks ip k := by
  intro he
  have hself : (Function.update D i ip i).type ≠ 0 := by rwa [Function.update_self]
  have hunique := ho.unique (p := ndirect) (q := refPos k) hj htj (by decide) hi hself
    (refPos_lt hk)
  rw [Function.update_self, ref_of_le le_rfl] at hunique
  exact refPos_ne_ndirect (hunique hn he).2.symm

theorem Owned.blockOf_inj (ho : Owned sb (Function.update D i ip) noExtra v.blocks)
    (hi : i < sb.ninodes) (ht : ip.type ≠ 0) {j k : ℕ} (hj : j < maxFile) (hk : k < maxFile)
    (h0 : blockOf v.blocks ip j ≠ 0) (he : blockOf v.blocks ip j = blockOf v.blocks ip k) :
    j = k := by
  have hself : (Function.update D i ip i).type ≠ 0 := by rwa [Function.update_self]
  have hunique := ho.unique hi hself (refPos_lt hj) hi hself (refPos_lt hk)
  rw [Function.update_self] at hunique
  exact refPos_inj (hunique h0 he).2

namespace Written

theorem refl (src : Src) (off : ℕ) (ho : Owned sb (Function.update D i ip) noExtra v.blocks) :
    Written sb D i src v ip off v ip 0 off where
  same := rfl
  owned := ho
  held := rfl
  low _ _ := rfl
  other _ _ _ _ := rfl
  refs _ _ := rfl
  used _ _ h := h
  old _ _ _ _ := rfl
  new j hj := absurd hj (Nat.not_lt_zero j)

theorem type (h : Written sb D i src v ip off w ip' tot top) : ip'.type = ip.type := by rw [h.same]

theorem size (h : Written sb D i src v ip off w ip' tot top) : ip'.size = ip.size := by rw [h.same]

theorem grow (h : Written sb D i src v ip off w ip' tot top) (hg : Grown sb D i w ip' u ip'')
    (hi : i < sb.ninodes) (ht : ip'.type ≠ 0) : Written sb D i src v ip off u ip'' tot top := by
  refine ⟨?_, hg.owned, hg.held.trans h.held, ?_, ?_, ?_, ?_, ?_, ?_⟩
  · rw [hg.same, h.same]
  · intro x hx
    rw [hg.kept x (Or.inl hx), h.low x hx]
  · intro x hd hu hx
    have hind : x ≠ ip''.addr ndirect := by
      have := hx ndirect (by decide)
      rw [ref_of_le le_rfl] at this
      exact this.symm
    rw [hg.kept x (Or.inr ⟨hd, h.used x hd.2 hu, hind⟩)]
    apply h.other x hd hu
    rintro p hp rfl
    exact hx p hp (hg.refs p hd.ne_zero)
  · intro p hp
    have := h.refs p hp
    rw [hg.refs p (by rw [this]; exact hp), this]
  · intro x hx hu
    exact hg.used x hx (h.used x hx hu)
  · intro x hk h0 hx
    have hblock : blockOf w.blocks ip' (x / bsize) = blockOf v.blocks ip (x / bsize) :=
      h.refs _ h0
    rw [hg.byteAt hi ht h.owned hk (by rw [hblock]; exact h0), h.old x hk h0 hx]
  · intro j hj
    obtain ⟨hk, h0, hmem⟩ := h.new j hj
    refine ⟨hk, ?_, fun mem hsrc => ?_⟩
    · rw [blockOf, hg.refs _ h0]
      exact h0
    · rw [hg.byteAt hi ht h.owned hk h0, hmem mem hsrc]

theorem store (h : Written sb D i src v ip off w ip' tot (off + tot)) (hsb : sb.Valid)
    (hi : i < sb.ninodes) (ht : ip'.type ≠ 0) (hk : (off + tot) / bsize < maxFile)
    (h0 : blockOf w.blocks ip' ((off + tot) / bsize) ≠ 0) (l : List UInt8)
    (hl : (off + tot) % bsize + l.length ≤ bsize) :
    Written sb D i src v ip off (w.set (blockOf w.blocks ip' ((off + tot) / bsize))
      ((w.blocks (blockOf w.blocks ip' ((off + tot) / bsize))).blit ((off + tot) % bsize) l)) ip'
      tot (off + tot + l.length) ∧
    ∀ j (hj : j < l.length), (off + tot + j) / bsize = (off + tot) / bsize ∧
      blockOf (w.set (blockOf w.blocks ip' ((off + tot) / bsize)) ((w.blocks (blockOf w.blocks ip'
        ((off + tot) / bsize))).blit ((off + tot) % bsize) l)).blocks ip'
        ((off + tot + j) / bsize) ≠ 0 ∧
      byteAt (w.set (blockOf w.blocks ip' ((off + tot) / bsize)) ((w.blocks (blockOf w.blocks ip'
        ((off + tot) / bsize))).blit ((off + tot) % bsize) l)).blocks ip' (off + tot + j) = l[j] := by
  set a := blockOf w.blocks ip' ((off + tot) / bsize) with ha
  set c := (w.blocks a).blit ((off + tot) % bsize) l with hc
  obtain ⟨hd, -⟩ := h.owned.of_ref_self hi ht (refPos_lt hk) h0
  change sb.InData a at hd
  have hself : Function.update D i ip' i = ip' := Function.update_self i ip' D
  have href : ∀ p, ref (w.set a c).blocks ip' p = ref w.blocks ip' p := by
    intro p
    apply ref_congr
    intro hn
    rw [View.blocks_set, Function.update_of_ne]
    have := h.owned.data_ne_indirect hi ht hk hi (by rwa [hself]) (by rwa [hself])
    rwa [hself] at this
  have hbyte : ∀ x, x / bsize < maxFile → blockOf w.blocks ip' (x / bsize) ≠ 0 →
      byteAt (w.set a c).blocks ip' x =
        if x / bsize = (off + tot) / bsize then c.get (x % bsize) else byteAt w.blocks ip' x := by
    intro x hx hx0
    unfold byteAt
    rw [blockOf, href, View.blocks_set, Function.update_apply]
    split_ifs with h₁ h₂ h₂
    · rfl
    · exact absurd (h.owned.blockOf_inj hi ht hx hk hx0 h₁) h₂
    · rw [h₂] at h₁
      exact absurd rfl h₁
    · rfl
  have houtside : ∀ x, x / bsize < maxFile → blockOf w.blocks ip' (x / bsize) ≠ 0 →
      x < off + tot ∨ off + tot + l.length ≤ x →
      byteAt (w.set a c).blocks ip' x = byteAt w.blocks ip' x := by
    intro x hx hx0 hxl
    rw [hbyte x hx hx0]
    split_ifs with he
    · rw [hc, Bytes.get_blit_of_disjoint, byteAt, he]
      rw [bsize_eq] at *
      omega
    · rfl
  have hused : ∀ x < sb.size, Fs.used sb (w.set a c).blocks x = Fs.used sb w.blocks x := by
    intro x hx
    unfold Fs.used
    have := bblock_lt hx
    have := hd.1
    rw [View.blocks_set, Function.update_of_ne (by omega)]
  refine ⟨⟨h.same, ?_, h.held, ?_, ?_, ?_, ?_, ?_, ?_⟩, ?_⟩
  · apply h.owned.congr hused _ hsb
    intro j hj htj hn
    rw [View.blocks_set, Function.update_of_ne (h.owned.data_ne_indirect hi ht hk hj htj hn)]
  · intro x hx
    have := hd.1
    have : sb.bmapstart < sb.dataStart := bmapstart_lt_dataStart
    rw [View.blocks_set, Function.update_of_ne (by omega), h.low x hx]
  · intro x hdx hu hx
    have hxa : x ≠ a := by
      rintro rfl
      exact hx _ (refPos_lt hk) (by rw [href]; rfl)
    rw [View.blocks_set, Function.update_of_ne hxa]
    exact h.other x hdx hu fun p hp => by rw [← href]; exact hx p hp
  · intro p hp
    rw [href, h.refs p hp]
  · intro x hx hu
    rw [hused x hx, h.used x hx hu]
  · intro x hx hx0 hxl
    have hblock : blockOf w.blocks ip' (x / bsize) = blockOf v.blocks ip (x / bsize) :=
      h.refs _ hx0
    rw [houtside x hx (by rwa [hblock]) (by omega), h.old x hx hx0 (by omega)]
  · intro j hj
    obtain ⟨hkj, hj0, hmem⟩ := h.new j hj
    refine ⟨hkj, by rwa [blockOf, href], fun mem hsrc => ?_⟩
    rw [houtside _ hkj hj0 (by omega), hmem mem hsrc]
  · intro j hj
    have hdiv : (off + tot + j) / bsize = (off + tot) / bsize := by
      rw [bsize_eq] at *
      omega
    have hmod : (off + tot + j) % bsize = (off + tot) % bsize + j := by
      rw [bsize_eq] at *
      omega
    refine ⟨hdiv, ?_, ?_⟩
    · rwa [hdiv, blockOf, href]
    · rw [hbyte _ (by rwa [hdiv]) (by rwa [hdiv]), if_pos hdiv, hmod, hc, Bytes.get_blit,
        if_pos (by omega), Nat.add_sub_cancel_left, List.getD_eq_getElem _ _ hj]

theorem advance (h : Written sb D i src v ip off w ip' tot top) {tot' : ℕ}
    (hnew : ∀ j, tot ≤ j → j < tot' → (off + j) / bsize < maxFile ∧
      blockOf w.blocks ip' ((off + j) / bsize) ≠ 0 ∧
      ∀ mem, src = .kernel mem → byteAt w.blocks ip' (off + j) = mem j) :
    Written sb D i src v ip off w ip' tot' top := by
  refine ⟨h.same, h.owned, h.held, h.low, h.other, h.refs, h.used, h.old, fun j hj => ?_⟩
  by_cases hjt : j < tot
  · exact h.new j hjt
  · exact hnew j (by omega) hj

theorem other_ref (h : Written sb D i src v ip off w ip' tot top)
    (ho : Owned sb (Function.update D i ip) noExtra v.blocks) (hi : i < sb.ninodes)
    (ht : ip'.type ≠ 0) {j : ℕ} (hj : j < sb.ninodes) (hji : j ≠ i) (htj : (D j).type ≠ 0) (p : ℕ) :
    ref w.blocks (D j) p = ref v.blocks (D j) p := by
  have hDj : ∀ d, Function.update D i d j = D j := fun d => Function.update_of_ne hji d D
  apply ref_congr
  intro hn
  obtain ⟨hd, hu⟩ := ho.of_indirect hj (by rwa [hDj]) (by rwa [hDj])
  rw [hDj] at hd hu
  apply h.other _ hd hu
  intro q hq he
  have hunique := h.owned.unique (p := ndirect) hj (by rwa [hDj]) (by decide) hi
    (by rwa [Function.update_self]) hq
  rw [hDj, Function.update_self, ref_of_le le_rfl] at hunique
  exact hji (hunique hn he.symm).1

theorem other_byte (h : Written sb D i src v ip off w ip' tot top)
    (ho : Owned sb (Function.update D i ip) noExtra v.blocks) (hi : i < sb.ninodes)
    (ht : ip'.type ≠ 0) {j : ℕ} (hj : j < sb.ninodes) (hji : j ≠ i) (htj : (D j).type ≠ 0) {x : ℕ}
    (hk : x / bsize < maxFile) (h0 : blockOf v.blocks (D j) (x / bsize) ≠ 0) :
    byteAt w.blocks (D j) x = byteAt v.blocks (D j) x := by
  have hDj : ∀ d, Function.update D i d j = D j := fun d => Function.update_of_ne hji d D
  have hblock : blockOf w.blocks (D j) (x / bsize) = blockOf v.blocks (D j) (x / bsize) :=
    h.other_ref ho hi ht hj hji htj _
  obtain ⟨hd, hu⟩ := ho.of_ref (b := blockOf v.blocks (D j) (x / bsize)) hj (by rwa [hDj])
    (refPos_lt hk) (by rw [hDj]; rfl) h0
  unfold byteAt
  rw [hblock, h.other _ hd hu]
  intro q hq he
  have hunique := h.owned.unique hj (by rwa [hDj]) (refPos_lt hk) hi
    (by rwa [Function.update_self]) hq
  rw [hDj, Function.update_self] at hunique
  have hne : ref w.blocks (D j) (refPos (x / bsize)) ≠ 0 := by
    change blockOf w.blocks (D j) (x / bsize) ≠ 0
    rwa [hblock]
  exact hji (hunique hne (hblock.trans he.symm)).1

end Written

theorem storeBytes_spec {a o : ℕ} (l : List UInt8) :
    (storeBytes a (v.blocks a) o l).Returns viewInterp
      (fun _ w => w = (v.set a ((v.blocks a).blit o l)).lock a) (v.lock a) := by
  unfold storeBytes
  split_ifs with hl
  · subst hl
    refine .ret ?_
    rw [Bytes.blit_nil, View.set, Function.update_eq_self]
  · rw [← Prog.bind_ret_unit (Bio.store a _)]
    apply returns_store (by simp)
    exact .ret rfl

/-- How far a call of `writei` has got: `top` is where the changed bytes end. -/
def Wrote (sb : Superblock) (D : ℕ → Dinode) (i : ℕ) (src : Src) (v : View) (ip : Dinode)
    (off n : ℕ) (r : ℕ × ℕ × Dinode) (w : View) : Prop :=
  r.2.1 = off + r.1 ∧ r.1 ≤ n ∧ ∃ top, Written sb D i src v ip off w r.2.2 r.1 top ∧
    off + r.1 ≤ top ∧ top ≤ off + n ∧ (NoPartialCopy src off n → top = off + r.1)

/-- The bytes that `either_copyin` is asked for in the round of the loop that starts after `tot` bytes. -/
def roundLen (off n tot : ℕ) : ℕ := min (n - tot) (bsize - (off + tot) % bsize)

/-- A round of the loop: it ends because there is no free block or because the copy fails, or it
goes on with the next round. -/
theorem writeiLoop_round (hsb : sb.Valid) (hi : i < sb.ninodes) (ht : ip.type ≠ 0) (hfree : v.Free)
    (hend : off + n ≤ maxFile * bsize) {fuel : ℕ} {Q : ℕ × ℕ × Dinode → View → Prop}
    (h : Written sb D i src v ip off w ip' tot (off + tot)) (hlt : tot < n)
    (hfull : ∀ ip'' u, Written sb D i src v ip off u ip'' tot (off + tot) → Full sb u.blocks →
      Q (tot, off + tot, ip'') u)
    (hfail : ∀ ip'' u, (eitherCopyin src tot (roundLen off n tot)).2 = false →
      Written sb D i src v ip off u ip'' tot
        (off + tot + (eitherCopyin src tot (roundLen off n tot)).1.length) →
      Q (tot, off + tot, ip'') u)
    (hnext : ∀ ip'' u, Written sb D i src v ip off u ip'' (tot + roundLen off n tot)
        (off + (tot + roundLen off n tot)) →
      (writeiLoop sb src n fuel ip'' (tot + roundLen off n tot)
        (off + (tot + roundLen off n tot))).Returns viewInterp Q u) :
    (writeiLoop sb src n (fuel + 1) ip' tot (off + tot)).Returns viewInterp Q w := by
  have hk : (off + tot) / bsize < maxFile := by
    rw [bsize_eq, maxFile_eq] at *
    omega
  have hfw : w.Free := by rwa [View.Free, h.held]
  have htw : ip'.type ≠ 0 := by rwa [h.type]
  rw [writeiLoop, if_pos hlt]
  refine ((bmap_spec h.owned hsb hi htw hfw hk).and (bmap_full h.owned hsb hi htw hfw hk)).bind ?_
  rintro ⟨addr, ip''⟩ u ⟨⟨hg, haddr⟩, hnone⟩
  simp only at hg haddr hnone ⊢
  have hu := h.grow hg hi (by rwa [h.type])
  by_cases h0 : addr = 0
  · rw [if_pos h0]
    exact .ret (hfull ip'' u hu (hnone h0))
  obtain rfl := haddr h0
  have hfu : u.Free := by rwa [View.Free, hg.held]
  have htu : ip''.type ≠ 0 := by rwa [hu.type]
  rw [if_neg h0]
  apply returns_bread (hfu _)
  have hround : roundLen off n tot = min (n - tot) (bsize - (off + tot) % bsize) := rfl
  have hpos := chunk_pos (off + tot) hlt
  rw [← hround]
  obtain ⟨hle, hlen⟩ := length_eitherCopyin src tot (roundLen off n tot)
  obtain ⟨hstore, hbytes⟩ := hu.store hsb hi htu hk h0
    (eitherCopyin src tot (roundLen off n tot)).1 (by omega)
  have hset : ∀ a c x, (u.set a c).held x = false := fun _ _ x => hfu x
  refine (storeBytes_spec _).bind ?_
  rintro _ _ rfl
  by_cases hok : (eitherCopyin src tot (roundLen off n tot)).2 = false
  · rw [if_pos hok]
    apply returns_release (hset _ _ _)
    exact .ret (hfail ip'' _ hok hstore)
  · rw [Bool.not_eq_false] at hok
    rw [hlen hok] at hstore
    rw [hok, if_neg (by simp)]
    apply returns_logWrite (by simp)
    apply returns_release (hset _ _ _)
    rw [Nat.add_assoc]
    apply hnext
    rw [← Nat.add_assoc]
    apply hstore.advance
    intro j hj hjm
    obtain ⟨hdiv, hne, hbyte⟩ := hbytes (j - tot) (by rw [hlen hok]; omega)
    have hj' : off + tot + (j - tot) = off + j := by omega
    rw [hj'] at hdiv hne hbyte
    refine ⟨by rwa [hdiv], hne, ?_⟩
    rintro mem rfl
    rw [hbyte]
    simp only [eitherCopyin, List.getElem_map, List.getElem_range]
    congr 1
    omega

theorem roundLen_spec (off : ℕ) (h : tot < n) : 0 < roundLen off n tot ∧ tot + roundLen off n tot ≤ n ∧
    (tot + roundLen off n tot < n → (off + (tot + roundLen off n tot)) % bsize = 0) := by
  have hpos := chunk_pos (off + tot) h
  unfold roundLen
  refine ⟨hpos, by omega, fun hlt => ?_⟩
  rw [bsize_eq] at *
  omega

/-- Each round writes the bytes of one block; by induction on the rounds that are left. -/
theorem writeiLoop_spec (hsb : sb.Valid) (hi : i < sb.ninodes) (ht : ip.type ≠ 0) (hfree : v.Free)
    (hend : off + n ≤ maxFile * bsize) (fuel : ℕ)
    (h : Written sb D i src v ip off w ip' tot (off + tot)) (hfuel : n ≤ tot + fuel)
    (htot : tot ≤ n) (hal : tot < n → tot = 0 ∨ (off + tot) % bsize = 0) :
    (writeiLoop sb src n fuel ip' tot (off + tot)).Returns viewInterp
      (Wrote sb D i src v ip off n) w := by
  induction fuel generalizing w ip' tot with
  | zero =>
    rw [writeiLoop]
    exact .ret ⟨rfl, htot, _, h, le_rfl, by omega, fun _ => rfl⟩
  | succ fuel ih =>
    by_cases hlt : tot < n
    · obtain ⟨hpos, hle, hnext⟩ := roundLen_spec off hlt
      have hcopied := (length_eitherCopyin src tot (roundLen off n tot)).1
      apply writeiLoop_round hsb hi ht hfree hend h hlt
      · intro ip'' u hu _
        exact ⟨rfl, htot, _, hu, le_rfl, by omega, fun _ => rfl⟩
      · intro ip'' u hok hu
        refine ⟨rfl, htot, _, hu, by omega, by omega, fun hpart => ?_⟩
        have hnil : (eitherCopyin src tot (roundLen off n tot)).1 = [] := hpart tot hlt (hal hlt) hok
        rw [hnil, List.length_nil, Nat.add_zero]
      · intro ip'' u hu
        exact ih hu (by omega) hle fun hlt' => Or.inr (hnext hlt')
    · rw [writeiLoop, if_neg hlt]
      exact .ret ⟨rfl, htot, _, h, le_rfl, by omega, fun _ => rfl⟩

end Xv6.Fs
