import Xv6.Mkfs.Program
import Xv6.Fs.Inode

/-! `iappend` writes a file as the kernel's `writei` would: seen with a free bit map that marks the
blocks below `freeblock`, the image is a file system, and `freeblock++` allocates a block. -/
namespace Xv6.Mkfs

open Lib Fs

/-- The layout of the image, with room for the inodes below `n`. -/
def layout (n : ℕ) : Superblock := { Superblock.mkfs with ninodes := n }

variable {n i : ℕ}

theorem layout_valid (h : n < 208) : (layout n).Valid := by
  refine ⟨Superblock.mkfs_valid.log, ?_, Superblock.mkfs_valid.data, Superblock.mkfs_valid.size⟩
  show 32 + n / ipb < 45
  rw [ipb_eq]
  omega

theorem bmapstart_layout : (layout n).bmapstart = 45 := rfl

theorem dataStart_layout : (layout n).dataStart = nmeta := by
  show Superblock.mkfs.dataStart = nmeta
  decide

theorem size_layout : (layout n).size = fssize := rfl

theorem bblock_layout {b : ℕ} (h : b < bpb) : (layout n).bblock b = 45 := by
  rw [Superblock.bblock, Nat.div_eq_of_lt h, Nat.zero_add, bmapstart_layout]

theorem fssize_lt_bpb : fssize < bpb := by decide

theorem testBit_bitmap {used : ℕ} (hu : used ≤ bpb) (j : ℕ) :
    (bitmap used).testBit j = decide (j < used) := by
  induction used with
  | zero =>
    show Bytes.testBit (fun _ => 0) j = false
    rw [Bytes.testBit, Bytes.and_mask_bne_zero _ (by omega)]
    simp [Bytes.get]
  | succ used ih =>
    have hset : bitmap (used + 1) = (bitmap used).setBit used := by
      rw [bitmap, List.range_succ, List.foldl_append]
      rfl
    rw [hset, Bytes.testBit_setBit (by rw [bpb_eq] at hu; rw [bsize_eq]; omega), ih (by omega),
      ← Bool.decide_or]
    congr 1
    simp only [eq_iff_iff]
    omega

namespace State

/-- The image as the kernel would see it if the free bit map were written now. -/
def view (s : State) : View := ⟨Function.update s.sect 45 (bitmap s.freeblock), fun _ => false⟩

/-- The image has its full size, and the sectors that are not allocated yet are clear. -/
structure Ok (s : State) : Prop where
  size : s.size = fssize
  low : nmeta ≤ s.freeblock
  high : s.freeblock ≤ fssize
  clear : ∀ b, s.freeblock ≤ b → s.sect b = fun _ => 0

variable {s : State} {b : ℕ} {c : Block}

theorem view_free (s : State) : s.view.Free := fun _ => rfl

theorem view_blocks_of_ne (h : b ≠ 45) : s.view.blocks b = s.sect b :=
  Function.update_of_ne h _ _

theorem used_view (h : s.Ok) (hb : b < bpb) :
    used (layout n) s.view.blocks b = decide (b < s.freeblock) := by
  rw [used, bblock_layout hb, Nat.mod_eq_of_lt hb]
  show (Function.update s.sect 45 (bitmap s.freeblock) 45).testBit b = _
  rw [Function.update_self, testBit_bitmap (h.high.trans fssize_lt_bpb.le)]

theorem view_nextBlock (h : s.Ok) (hroom : s.freeblock < fssize) :
    { s with freeblock := s.freeblock + 1 }.view = s.view.allocated (layout n) s.freeblock := by
  have hbpb : s.freeblock < bpb := hroom.trans (by decide)
  have hne : s.freeblock ≠ 45 := by
    have := h.low
    rw [nmeta_eq] at this
    omega
  have hbit : bitmap (s.freeblock + 1) = (bitmap s.freeblock).setBit s.freeblock := by
    rw [bitmap, List.range_succ, List.foldl_append]
    rfl
  ext : 1
  · unfold view View.allocated View.set
    simp only [bblock_layout hbpb, Nat.mod_eq_of_lt hbpb, Function.update_self, hbit,
      Function.update_idem]
    rw [Function.update_comm hne.symm, ← h.clear s.freeblock le_rfl, Function.update_eq_self]
  · rfl

theorem Ok.nextBlock (h : s.Ok) (hroom : s.freeblock < fssize) :
    { s with freeblock := s.freeblock + 1 }.Ok :=
  ⟨h.size, h.low.trans (Nat.le_succ _), hroom, fun b hb => h.clear b ((Nat.le_succ _).trans hb)⟩

end State

variable {D : ℕ → Dinode} {s : State} {din : Dinode} {k m fbn : ℕ}

/-- The state `s` after blocks have been taken for inode `i`, whose copy in memory is `din`. -/
structure Took (n : ℕ) (D : ℕ → Dinode) (i : ℕ) (s : State) (din : Dinode) (s' : State)
    (din' : Dinode) : Prop where
  ok : s'.Ok
  freeinode : s'.freeinode = s.freeinode
  grown : Grown (layout n) D i s.view din s'.view din'

namespace Took

theorem refl (hok : s.Ok) (ho : Owned (layout n) (Function.update D i din) noExtra s.view.blocks) :
    Took n D i s din s din := ⟨hok, rfl, .refl ho⟩

theorem trans {s' s'' : State} {din' din'' : Dinode} (h₁ : Took n D i s din s' din')
    (h₂ : Took n D i s' din' s'' din'') : Took n D i s din s'' din'' :=
  ⟨h₂.ok, h₂.freeinode.trans h₁.freeinode, h₁.grown.trans h₂.grown⟩

end Took

theorem freeblock_inData (hok : s.Ok) (hroom : s.freeblock < fssize) :
    (layout n).InData s.freeblock ∧ used (layout n) s.view.blocks s.freeblock = false := by
  refine ⟨⟨by rw [dataStart_layout]; exact hok.low, by rwa [size_layout]⟩, ?_⟩
  rw [State.used_view hok (hroom.trans fssize_lt_bpb)]
  simp

theorem appendAddr_spec (hn : n < 208) (hi : i < n) (ht : din.type ≠ 0) (hk : k ≤ ndirect)
    (hok : s.Ok) (ho : Owned (layout n) (Function.update D i din) noExtra s.view.blocks)
    (hroom : din.addr k = 0 → s.freeblock < fssize) :
    (appendAddr din k).Returns interp (fun din' s' => Took n D i s din s' din' ∧
      din'.addr k ≠ 0 ∧ (∀ p, p ≠ k → ref s'.view.blocks din' p = ref s.view.blocks din p) ∧
      s'.freeblock = s.freeblock + (if din.addr k = 0 then 1 else 0) ∧
      (din.addr k = 0 → s'.view.blocks (din'.addr k) = fun _ => 0)) s := by
  unfold appendAddr
  split_ifs with h0
  · obtain ⟨hd, hu⟩ := freeblock_inData (n := n) hok (hroom h0)
    have hg := Grown.setAddr ho (layout_valid hn) hi ht hk h0 hd hu
    have h32 := hd.lt_two_pow (layout_valid hn)
    have haddr : (din.setAddr k s.freeblock).addr k = s.freeblock := by
      rw [din.addr_setAddr hk h32, if_pos rfl]
    refine .op rfl (.ret ⟨⟨hok.nextBlock (hroom h0), rfl, ?_⟩, ?_, ?_, rfl, fun _ => ?_⟩)
    · rwa [State.view_nextBlock hok (hroom h0)]
    · rw [haddr]
      exact hd.ne_zero
    · intro p hp
      rw [State.view_nextBlock (n := n) hok (hroom h0)]
      exact ref_setAddr_allocated ho (layout_valid hn) hi ht hk h0 hd hu hp
    · rw [haddr, State.view_nextBlock (n := n) hok (hroom h0), View.blocks_allocated_self]
  · exact .ret ⟨.refl hok ho, h0, fun _ _ => rfl, rfl, fun h => absurd h h0⟩

/-- The first `m` blocks of a file are there, and no others. -/
structure Exact (blocks : Disk) (d : Dinode) (m : ℕ) : Prop where
  data : ∀ k < maxFile, blockOf blocks d k ≠ 0 ↔ k < m
  indirect : d.addr ndirect ≠ 0 ↔ ndirect < m

/-- The blocks of a file with `m` data blocks, the indirect block included. -/
def blockCount (m : ℕ) : ℕ := m + if ndirect < m then 1 else 0

theorem blockCount_succ (m : ℕ) :
    blockCount (m + 1) = blockCount m + 1 + if m = ndirect then 1 else 0 := by
  unfold blockCount
  split_ifs <;> omega

theorem rsect_spec {α : Type} {Q : α → State → Prop} {f : Block → Code α} {sec : ℕ}
    (h : sec < s.size) (hf : (f (s.sect sec)).Returns interp Q s) :
    (rsect sec >>= f).Returns interp Q s :=
  .op (by simp [interp, h]) hf

theorem view_wsect {sec : ℕ} {c : Block} (h : sec ≠ 45) :
    { s with sect := Function.update s.sect sec c }.view = s.view.set sec c := by
  unfold State.view View.set
  simp only
  rw [Function.update_comm h]

theorem wsect_spec {α : Type} {Q : α → State → Prop} {f : Unit → Code α} {sec : ℕ} {c : Block}
    (h : sec < s.size)
    (hf : (f ()).Returns interp Q { s with sect := Function.update s.sect sec c }) :
    (wsect sec c >>= f).Returns interp Q s := by
  refine .op (r := ()) (t := { s with sect := Function.update s.sect sec c }) ?_ hf
  simp only [interp]
  rw [Nat.max_eq_left h]

theorem State.Ok.wsect (h : s.Ok) {sec : ℕ} {c : Block} (hsec : sec < s.freeblock) :
    { s with sect := Function.update s.sect sec c }.Ok := by
  refine ⟨h.size, h.low, h.high, fun b hb => ?_⟩
  have hne : b ≠ sec := by
    rintro rfl
    exact absurd hb (by simpa using hsec)
  simp only [Function.update_of_ne hne]
  exact h.clear b hb

theorem ref_lt_freeblock (hok : s.Ok) (hi : i < n) (ht : din.type ≠ 0)
    (ho : Owned (layout n) (Function.update D i din) noExtra s.view.blocks) {p : ℕ} (hp : p < nref)
    (h0 : ref s.view.blocks din p ≠ 0) :
    nmeta ≤ ref s.view.blocks din p ∧ ref s.view.blocks din p < s.freeblock := by
  obtain ⟨hd, hu⟩ := ho.of_ref_self hi ht hp h0
  rw [State.used_view hok (lt_trans hd.2 fssize_lt_bpb)] at hu
  refine ⟨?_, by simpa using hu⟩
  rw [← dataStart_layout (n := n)]
  exact hd.1

theorem appendEntry_spec (hn : n < 208) (hi : i < n) (ht : din.type ≠ 0) (hok : s.Ok)
    (ho : Owned (layout n) (Function.update D i din) noExtra s.view.blocks)
    (hind : din.addr ndirect ≠ 0) (hfbn : ndirect ≤ fbn) (hmax : fbn < maxFile)
    (h0 : blockOf s.view.blocks din fbn = 0) (hroom : s.freeblock < fssize) :
    (nextBlock >>= fun b => wsect (din.addr ndirect)
        ((s.view.blocks (din.addr ndirect)).setLE (4 * (fbn - ndirect)) 4 b) >>= fun _ =>
      Prog.ret (((s.view.blocks (din.addr ndirect)).setLE (4 * (fbn - ndirect)) 4 b).getLE
        (4 * (fbn - ndirect)) 4, din)).Returns interp
      (fun r s' => Took n D i s din s' r.2 ∧ r.2 = din ∧ r.1 = blockOf s'.view.blocks r.2 fbn ∧
        r.1 ≠ 0 ∧ (∀ p, p ≠ refPos fbn → ref s'.view.blocks r.2 p = ref s.view.blocks din p) ∧
        s'.freeblock = s.freeblock + 1 ∧ s'.view.blocks r.1 = fun _ => 0) s := by
  have hsb := layout_valid hn
  obtain ⟨hd, hu⟩ := freeblock_inData (n := n) hok hroom
  have hpos : refPos fbn = fbn + 1 := if_neg (by omega)
  have hp : ndirect < fbn + 1 := by omega
  have hpn : fbn + 1 < nref := by rw [← hpos]; exact refPos_lt hmax
  have hsub : fbn - ndirect = fbn + 1 - (ndirect + 1) := by omega
  have hindirect := ref_lt_freeblock (p := ndirect) hok hi ht ho (by decide)
    (by rwa [ref_of_le le_rfl])
  rw [ref_of_le le_rfl] at hindirect
  have hne : din.addr ndirect ≠ 45 := by
    have := hindirect.1
    rw [nmeta_eq] at this
    omega
  have hg := Grown.setEntry ho hsb hi ht hind hp hpn (by rw [← hpos]; exact h0) hd hu
  have href := ref_setEntry_allocated ho hsb hi ht hind hp hpn hd hu
  rw [hsub]
  refine .op rfl ?_
  apply wsect_spec (by rw [hok.size]; exact hindirect.2.trans hroom)
  have hview : { s with
      freeblock := s.freeblock + 1
      sect := Function.update s.sect (din.addr ndirect) ((s.view.blocks (din.addr ndirect)).setLE
        (4 * (fbn + 1 - (ndirect + 1))) 4 s.freeblock) }.view =
      (s.view.allocated (layout n) s.freeblock).set (din.addr ndirect)
        ((s.view.blocks (din.addr ndirect)).setLE (4 * (fbn + 1 - (ndirect + 1))) 4
          s.freeblock) := by
    rw [← State.view_nextBlock hok hroom, ← view_wsect hne]
  have hblock : blockOf ((s.view.allocated (layout n) s.freeblock).set (din.addr ndirect)
      ((s.view.blocks (din.addr ndirect)).setLE (4 * (fbn + 1 - (ndirect + 1))) 4
        s.freeblock)).blocks din fbn = s.freeblock := by
    rw [blockOf, hpos, href, if_pos rfl]
  have hget : ((s.view.blocks (din.addr ndirect)).setLE (4 * (fbn + 1 - (ndirect + 1))) 4
      s.freeblock).getLE (4 * (fbn + 1 - (ndirect + 1))) 4 = s.freeblock := by
    rw [Bytes.getLE_setLE_self (by rw [nref_eq] at hpn; rw [bsize_eq, ndirect_eq]; omega)]
    exact Nat.mod_eq_of_lt (by have := hd.lt_two_pow hsb; norm_num at this ⊢; exact this)
  refine .ret ⟨⟨(hok.nextBlock hroom).wsect (hindirect.2.trans (Nat.lt_succ_self _)), rfl, ?_⟩, rfl,
    ?_, ?_, ?_, rfl, ?_⟩
  · rw [hview]
    exact hg
  · rw [hview, hblock]
    exact hget
  · show Bytes.getLE _ _ _ ≠ 0
    rw [hget]
    exact hd.ne_zero
  · intro p hpf
    rw [hview, href, if_neg (by rwa [← hpos])]
  · rw [hview]
    simp only
    rw [hget, View.blocks_set, Function.update_of_ne hindirect.2.ne', View.blocks_allocated_self]

theorem Exact.extend {blocks blocks' : Disk} {d d' : Dinode} (h : Exact blocks d m) (hm : fbn ≤ m)
    (h0 : blockOf blocks' d' fbn ≠ 0)
    (hother : ∀ k, k ≠ fbn → blockOf blocks' d' k = blockOf blocks d k)
    (hind : d'.addr ndirect ≠ 0 ↔ ndirect < max m (fbn + 1)) :
    Exact blocks' d' (max m (fbn + 1)) := by
  refine ⟨fun k hk => ?_, hind⟩
  by_cases hkf : k = fbn
  · rw [hkf]
    exact iff_of_true h0 (by omega)
  · rw [hother k hkf, h.data k hk]
    omega

/-- The result of `appendBlock`: the block with index `fbn` of a file that had `m` blocks. -/
structure Got (n : ℕ) (D : ℕ → Dinode) (i : ℕ) (s : State) (din : Dinode) (m fbn : ℕ)
    (r : ℕ × Dinode) (s' : State) : Prop where
  took : Took n D i s din s' r.2
  block : r.1 = blockOf s'.view.blocks r.2 fbn
  ne_zero : r.1 ≠ 0
  exact : Exact s'.view.blocks r.2 (max m (fbn + 1))
  count : s'.freeblock + blockCount m = s.freeblock + blockCount (max m (fbn + 1))
  fresh : blockOf s.view.blocks din fbn = 0 → s'.view.blocks r.1 = fun _ => 0

theorem Exact.new_iff {blocks : Disk} (h : Exact blocks din m) (hm : fbn ≤ m) (hmax : fbn < maxFile) :
    blockOf blocks din fbn = 0 ↔ fbn = m := by
  rw [← not_iff_not]
  exact (h.data fbn hmax).trans (by omega)

theorem appendBlock_direct (hn : n < 208) (hi : i < n) (ht : din.type ≠ 0) (hok : s.Ok)
    (ho : Owned (layout n) (Function.update D i din) noExtra s.view.blocks)
    (hex : Exact s.view.blocks din m) (hm : fbn ≤ m) (hdir : fbn < ndirect)
    (hroom : s.freeblock + blockCount (max m (fbn + 1)) ≤ fssize + blockCount m) :
    (appendBlock din fbn).Returns interp (Got n D i s din m fbn) s := by
  have hnew := hex.new_iff hm (hdir.trans (by decide))
  have hgrow : fbn = m → max m (fbn + 1) = m + 1 := by omega
  have hkeep : fbn ≠ m → max m (fbn + 1) = m := by omega
  have hsucc := blockCount_succ m
  have hpos : refPos fbn = fbn := if_pos hdir
  have haddr : ∀ (u : State) (d : Dinode), d.addr fbn = blockOf u.view.blocks d fbn := by
    intro u d
    rw [blockOf, hpos, ref_of_le hdir.le]
  unfold appendBlock
  rw [if_pos hdir]
  refine (appendAddr_spec hn hi ht hdir.le hok ho ?_).bind ?_
  · intro h0
    rw [haddr s, hnew] at h0
    rw [hgrow h0] at hroom
    omega
  · rintro din' s' ⟨htook, hne, hrefs, hcount, hfresh⟩
    rw [haddr s] at hfresh
    simp only [haddr s, hnew] at hcount
    have hother : ∀ k, k ≠ fbn → blockOf s'.view.blocks din' k = blockOf s.view.blocks din k := by
      intro k hk
      apply hrefs
      rw [← hpos]
      exact fun he => hk (refPos_inj he)
    have hind := hrefs ndirect hdir.ne'
    rw [ref_of_le le_rfl, ref_of_le le_rfl] at hind
    refine .ret ⟨htook, haddr s' din', hne, hex.extend hm ?_ hother ?_, ?_, hfresh⟩
    · rwa [← haddr s']
    · rw [hind, hex.indirect]
      omega
    · split_ifs at hcount with hfm
      · rw [if_neg (by omega)] at hsucc
        rw [hgrow hfm]
        omega
      · rw [hkeep hfm]
        omega

theorem appendBlock_indirect (hn : n < 208) (hi : i < n) (ht : din.type ≠ 0) (hok : s.Ok)
    (ho : Owned (layout n) (Function.update D i din) noExtra s.view.blocks)
    (hex : Exact s.view.blocks din m) (hm : fbn ≤ m) (hdir : ¬fbn < ndirect) (hmax : fbn < maxFile)
    (hroom : s.freeblock + blockCount (max m (fbn + 1)) ≤ fssize + blockCount m) :
    (appendBlock din fbn).Returns interp (Got n D i s din m fbn) s := by
  have hnew := hex.new_iff hm hmax
  have hgrow : fbn = m → max m (fbn + 1) = m + 1 := by omega
  have hsucc := blockCount_succ m
  have hindirect : din.addr ndirect = 0 ↔ fbn = m ∧ m = ndirect := by
    rw [← not_iff_not]
    exact hex.indirect.trans (by omega)
  unfold appendBlock
  rw [if_neg hdir]
  refine (appendAddr_spec hn hi ht le_rfl hok ho ?_).bind ?_
  · intro h0
    rw [hindirect] at h0
    rw [hgrow h0.1] at hroom
    omega
  · rintro din' s' ⟨htook, hne, hrefs, hcount, -⟩
    simp only [hindirect] at hcount
    have hok' := htook.ok
    have ho' := htook.grown.owned
    have ht' : din'.type ≠ 0 := by rwa [htook.grown.type]
    have hblocks : ∀ k, blockOf s'.view.blocks din' k = blockOf s.view.blocks din k :=
      fun k => hrefs _ refPos_ne_ndirect
    have hlt := ref_lt_freeblock (p := ndirect) hok' hi ht' ho' (by decide)
      (by rwa [ref_of_le le_rfl])
    rw [ref_of_le le_rfl] at hlt
    have hne45 : din'.addr ndirect ≠ 45 := by
      have := hlt.1
      rw [nmeta_eq] at this
      omega
    apply rsect_spec (by rw [hok'.size]; exact hlt.2.trans_le hok'.high)
    rw [← State.view_blocks_of_ne hne45]
    have hentry : (s'.view.blocks (din'.addr ndirect)).getLE (4 * (fbn - ndirect)) 4 =
        blockOf s'.view.blocks din' fbn := by
      rw [show fbn - ndirect = fbn + 1 - (ndirect + 1) by omega, ← ref_of_lt (by omega) hne,
        blockOf, refPos, if_neg hdir]
    simp only [hentry]
    split_ifs with h0
    · have hfm : fbn = m := by rwa [hblocks, hnew] at h0
      have hroom' : s'.freeblock < fssize := by
        rw [hgrow hfm] at hroom
        split_ifs at hsucc hcount <;> omega
      refine (appendEntry_spec hn hi ht' hok' ho' hne (by omega) hmax h0 hroom').mono ?_
      rintro r s'' ⟨htook', hr, hblock, hr0, hrefs', hcount', hfresh⟩
      refine ⟨htook.trans htook', hblock, hr0, hex.extend hm (by rwa [← hblock]) ?_ ?_, ?_,
        fun _ => hfresh⟩
      · intro k hk
        rw [blockOf, hrefs' _ fun he => hk (refPos_inj he)]
        exact hblocks k
      · rw [hr]
        exact iff_of_true hne (by omega)
      · rw [hgrow hfm]
        split_ifs at hsucc hcount <;> omega
    · have hfm : fbn ≠ m := by rwa [hblocks, hnew] at h0
      have hkeep : max m (fbn + 1) = m := by omega
      rw [if_neg fun h => hfm h.1] at hcount
      refine .ret ⟨htook, rfl, h0, ?_, ?_, fun h => absurd h (by rwa [← hblocks])⟩
      · rw [hkeep]
        refine ⟨fun k hk => ?_, iff_of_true hne (by omega)⟩
        rw [hblocks]
        exact hex.data k hk
      · rw [hkeep, hcount]
        rfl

/-- One round of `iappend` finds or allocates the block that it writes to. -/
theorem appendBlock_spec (hn : n < 208) (hi : i < n) (ht : din.type ≠ 0) (hok : s.Ok)
    (ho : Owned (layout n) (Function.update D i din) noExtra s.view.blocks)
    (hex : Exact s.view.blocks din m) (hm : fbn ≤ m) (hmax : fbn < maxFile)
    (hroom : s.freeblock + blockCount (max m (fbn + 1)) ≤ fssize + blockCount m) :
    (appendBlock din fbn).Returns interp (Got n D i s din m fbn) s := by
  by_cases hdir : fbn < ndirect
  · exact appendBlock_direct hn hi ht hok ho hex hm hdir hroom
  · exact appendBlock_indirect hn hi ht hok ho hex hm hdir hmax hroom

end Xv6.Mkfs
