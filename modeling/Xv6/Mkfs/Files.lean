import Xv6.Mkfs.Append

/-! The files of the image while `main` appends to them. -/
namespace Xv6.Mkfs

open Lib Fs

variable {n i tot off : ℕ} {D : ℕ → Dinode} {s : State} {din ip : Dinode} {v : View}
  {mem : ℕ → UInt8}

def blocksFor (len : ℕ) : ℕ := (len + (bsize - 1)) / bsize

theorem blockCount_mono {m m' : ℕ} (h : m ≤ m') : blockCount m ≤ blockCount m' := by
  unfold blockCount
  split_ifs <;> omega

theorem blocksFor_chunk (off : ℕ) {len : ℕ} (h : 0 < len) :
    blocksFor (off + min len ((off / bsize + 1) * bsize - off)) =
      max (blocksFor off) (off / bsize + 1) := by
  unfold blocksFor
  rw [bsize_eq]
  omega

theorem blocksFor_mono {a b : ℕ} (h : a ≤ b) : blocksFor a ≤ blocksFor b :=
  Nat.div_le_div_right (by omega)

/-- What is appended so far to inode `i`, whose copy in memory is `din`. -/
structure Appended (n : ℕ) (D : ℕ → Dinode) (i : ℕ) (mem : ℕ → UInt8) (v : View) (ip : Dinode)
    (off tot : ℕ) (s : State) (din : Dinode) : Prop where
  written : Written (layout n) D i (.kernel mem) v ip off s.view din tot (off + tot)
  ok : s.Ok
  exact : Exact s.view.blocks din (blocksFor (off + tot))
  tail : ∀ x, off + tot ≤ x → x / bsize < maxFile → blockOf s.view.blocks din (x / bsize) ≠ 0 →
    byteAt s.view.blocks din x = 0

theorem Got.lt_freeblock {r : ℕ × Dinode} {s' : State} {m fbn : ℕ} (h : Got n D i s din m fbn r s')
    (hi : i < n) (ht : din.type ≠ 0) (hmax : fbn < maxFile) : nmeta ≤ r.1 ∧ r.1 < s'.freeblock := by
  have h0 := h.ne_zero
  have ht' : r.2.type ≠ 0 := by rwa [h.took.grown.type]
  rw [h.block] at h0 ⊢
  exact ref_lt_freeblock h.took.ok hi ht' h.took.grown.owned (refPos_lt hmax) h0

theorem Appended.store {r : ℕ × Dinode} {s' : State} {l : List UInt8}
    (h : Appended n D i mem v ip off tot s din) (hn : n < 208) (hi : i < n) (ht : ip.type ≠ 0)
    (hmax : (off + tot) / bsize < maxFile)
    (hgot : Got n D i s din (blocksFor (off + tot)) ((off + tot) / bsize) r s')
    (hl : (off + tot) % bsize + l.length ≤ bsize)
    (hmem : ∀ j (hj : j < l.length), l[j] = mem (tot + j))
    (hblocks : blocksFor (off + (tot + l.length)) =
      max (blocksFor (off + tot)) ((off + tot) / bsize + 1)) :
    Appended n D i mem v ip off (tot + l.length) { s' with
      sect := Function.update s'.sect r.1 ((s'.sect r.1).blit ((off + tot) % bsize) l) } r.2 := by
  have hsb := layout_valid hn
  have htd : din.type ≠ 0 := by rwa [h.written.type]
  have ht' : r.2.type ≠ 0 := by rwa [hgot.took.grown.type]
  have hg := h.written.grow hgot.took.grown hi htd
  have h0 := hgot.ne_zero
  have hb := hgot.block
  have hlt := hgot.lt_freeblock hi htd hmax
  have hne : r.1 ≠ 45 := by
    have := hlt.1
    rw [nmeta_eq] at this
    omega
  have hview := view_wsect (s := s') (c := (s'.sect r.1).blit ((off + tot) % bsize) l) hne
  rw [← State.view_blocks_of_ne hne] at hview ⊢
  obtain ⟨hstore, hbytes⟩ := hg.store hsb hi ht' hmax (by rw [← hb]; exact h0) l hl
  rw [← hb] at hstore hbytes
  have href : ∀ p, ref (s'.view.set r.1 ((s'.view.blocks r.1).blit ((off + tot) % bsize) l)).blocks
      r.2 p = ref s'.view.blocks r.2 p := by
    intro p
    apply ref_congr
    intro hind
    rw [View.blocks_set, Function.update_of_ne]
    have hdata := hg.owned.data_ne_indirect hi ht' hmax hi (by rwa [Function.update_self])
      (by rwa [Function.update_self])
    rwa [Function.update_self, ← hb] at hdata
  refine ⟨?_, hgot.took.ok.wsect hlt.2, ?_, ?_⟩
  · rw [hview, ← Nat.add_assoc]
    apply hstore.advance
    intro j hj hjl
    obtain ⟨hdiv, hne0, hbyte⟩ := hbytes (j - tot) (by omega)
    have hj' : off + tot + (j - tot) = off + j := by omega
    rw [hj'] at hdiv hne0 hbyte
    refine ⟨by rwa [hdiv], hne0, ?_⟩
    rintro _ ⟨⟩
    rw [hbyte, hmem]
    congr 1
    omega
  · rw [hview, hblocks]
    refine ⟨fun k hk => ?_, hgot.exact.indirect⟩
    rw [blockOf, href]
    exact hgot.exact.data k hk
  · intro x hx hxk hx0
    rw [hview] at hx0 ⊢
    rw [blockOf, href, ← blockOf, hgot.exact.data _ hxk] at hx0
    have hdiv : x / bsize = (off + tot) / bsize := by
      unfold blocksFor at hx0
      rw [bsize_eq] at *
      omega
    have hold : byteAt s'.view.blocks r.2 x = 0 := by
      by_cases hfresh : blockOf s.view.blocks din ((off + tot) / bsize) = 0
      · rw [byteAt, hdiv, ← hb, hgot.fresh hfresh]
        simp [Bytes.get]
      · rw [← hdiv] at hfresh
        rw [hgot.took.grown.byteAt hi htd h.written.owned hxk hfresh]
        exact h.tail x (by omega) hxk hfresh
    rw [byteAt, blockOf, href, ← blockOf, hdiv, ← hb, View.blocks_set, Function.update_self,
      Bytes.get_blit_of_disjoint]
    · rw [byteAt, hdiv, ← hb] at hold
      exact hold
    · rw [bsize_eq] at *
      omega

/-- `iappend` writes all bytes; by induction on the rounds that are left. -/
theorem appendLoop_spec (hn : n < 208) (hi : i < n) (ht : ip.type ≠ 0) (fuel : ℕ) (p : List UInt8)
    (h : Appended n D i mem v ip off tot s din) (hfuel : p.length ≤ fuel)
    (hp : ∀ j (hj : j < p.length), p[j] = mem (tot + j))
    (hend : off + (tot + p.length) ≤ maxFile * bsize)
    (hroom : s.freeblock + blockCount (blocksFor (off + (tot + p.length))) ≤
      fssize + blockCount (blocksFor (off + tot))) :
    (appendLoop fuel p din (off + tot)).Returns interp
      (fun r s' => r.1 = off + (tot + p.length) ∧ s'.freeinode = s.freeinode ∧
        Appended n D i mem v ip off (tot + p.length) s' r.2 ∧
        s'.freeblock + blockCount (blocksFor (off + tot)) =
          s.freeblock + blockCount (blocksFor (off + (tot + p.length)))) s := by
  induction fuel generalizing p s din tot with
  | zero =>
    have hp0 : p.length = 0 := by omega
    rw [hp0]
    exact .ret ⟨rfl, rfl, h, rfl⟩
  | succ fuel ih =>
    rw [appendLoop]
    by_cases hpos : 0 < p.length
    · have hmax : (off + tot) / bsize < maxFile := by
        rw [bsize_eq, maxFile_eq] at *
        omega
      set n1 := min p.length (((off + tot) / bsize + 1) * bsize - (off + tot)) with hn1
      have hn1pos : 0 < n1 := by
        rw [bsize_eq] at hn1
        omega
      have hchunk := blocksFor_chunk (off + tot) hpos
      rw [← hn1] at hchunk
      have hle : blockCount (blocksFor (off + tot + n1)) ≤
          blockCount (blocksFor (off + (tot + p.length))) :=
        blockCount_mono (blocksFor_mono (by omega))
      have hlen : (p.take n1).length = n1 := by
        rw [List.length_take]
        omega
      have hdrop : tot + n1 + (p.drop n1).length = tot + p.length := by
        rw [List.length_drop]
        omega
      rw [if_pos hpos]
      simp only
      rw [if_pos hmax]
      refine (appendBlock_spec hn hi (by rwa [h.written.type]) h.ok h.written.owned h.exact ?_ hmax
        ?_).bind ?_
      · rw [blocksFor, bsize_eq]
        omega
      · rw [← hchunk]
        omega
      · rintro ⟨x, din'⟩ s' hgot
        have hmod : off + tot - (off + tot) / bsize * bsize = (off + tot) % bsize := by
          rw [bsize_eq]
          omega
        have hin : (off + tot) % bsize + (p.take n1).length ≤ bsize := by
          rw [hlen, ← hmod]
          rw [bsize_eq] at *
          omega
        have hstore := h.store hn hi ht hmax hgot hin (fun j hj => ?_)
          (by rw [hlen, ← Nat.add_assoc, hchunk])
        · have htd : din.type ≠ 0 := by rwa [h.written.type]
          have hx : x < s'.size := by
            rw [hgot.took.ok.size]
            exact (hgot.lt_freeblock hi htd hmax).2.trans_le hgot.took.ok.high
          simp only
          apply rsect_spec hx
          apply wsect_spec hx
          rw [hmod]
          rw [hlen] at hstore
          have hcount := hgot.count
          rw [← hchunk] at hcount
          rw [Nat.add_assoc]
          refine (ih (p.drop n1) hstore (by omega) ?_ (by rwa [hdrop]) ?_).mono ?_
          · intro j hj
            rw [List.getElem_drop, hp]
            congr 1
            omega
          · rw [hdrop, ← Nat.add_assoc off tot n1]
            simp only
            omega
          · rw [hdrop, ← Nat.add_assoc off tot n1]
            rintro r u ⟨hr, hfi, happ, hfb⟩
            refine ⟨hr, hfi.trans hgot.took.freeinode, happ, ?_⟩
            simp only at hfb
            omega
        · rw [List.getElem_take]
          exact hp j _
    · have hp0 : p.length = 0 := by omega
      rw [if_neg hpos, hp0]
      exact .ret ⟨rfl, rfl, h, rfl⟩

end Xv6.Mkfs
