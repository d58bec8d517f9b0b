import Xv6.Mkfs.Files

/-! What `main` has written so far, file by file. -/
namespace Xv6.Mkfs

open Lib Fs

variable {n i k : ℕ} {s : State}

theorem iblock_layout (i : ℕ) : iblock i = (layout n).iblock i := rfl

theorem iblock_lt_bmapstart (hn : n < 208) (hi : i < n) : iblock i < 45 := by
  rw [iblock_layout (n := n), ← bmapstart_layout (n := n)]
  exact iblock_lt (layout_valid hn) hi

theorem le_iblock (i : ℕ) : 2 + nlog ≤ iblock i := Nat.le_add_left _ _

theorem rinode_spec (hn : n < 208) (hi : i < n) (hok : s.Ok) :
    (rinode i).Returns interp (fun d s' => d = inode (layout n) s.view.blocks i ∧ s' = s) s := by
  have hlt := iblock_lt_bmapstart hn hi
  unfold rinode
  apply rsect_spec (by rw [hok.size, fssize_eq]; omega)
  refine .ret ⟨?_, rfl⟩
  rw [inode, ← iblock_layout, State.view_blocks_of_ne (by omega)]

theorem winode_spec (hn : n < 208) (hi : i < n) (hok : s.Ok) (ip : Dinode) :
    (winode i ip).Returns interp (fun _ s' => s'.Ok ∧ s'.freeinode = s.freeinode ∧
      s'.freeblock = s.freeblock ∧ s'.view = s.view.updated (layout n) i ip ∧
      ∀ b < 2 + nlog, s'.sect b = s.sect b) s := by
  have hlt := iblock_lt_bmapstart hn hi
  have hlow := hok.low
  rw [nmeta_eq] at hlow
  unfold winode
  apply rsect_spec (by rw [hok.size, fssize_eq]; omega)
  rw [← Prog.bind_ret_unit (wsect _ _)]
  apply wsect_spec (by rw [hok.size, fssize_eq]; omega)
  refine .ret ⟨hok.wsect (by omega), rfl, rfl, ?_, ?_⟩
  · rw [view_wsect (by omega), View.updated, ← iblock_layout, State.view_blocks_of_ne (by omega)]
  · intro b hb
    have := le_iblock i
    simp only
    rw [Function.update_of_ne (by omega)]

structure File where
  type : BitVec 16
  data : List UInt8

def File.append (f : File) (p : List UInt8) : File := { f with data := f.data ++ p }

@[simp] theorem File.append_append (f : File) (p q : List UInt8) :
    (f.append p).append q = f.append (p ++ q) := by
  rw [append, append, append, List.append_assoc]

@[simp] theorem File.append_nil (f : File) : f.append [] = f := by
  rw [append, List.append_nil]

@[simp] theorem File.length_append (f : File) (p : List UInt8) :
    (f.append p).data.length = f.data.length + p.length := List.length_append

structure Stores (blocks : Disk) (d : Dinode) (f : File) : Prop where
  same : d = { Dinode.zero with type := f.type, nlink := 1, size := d.size, addrs := d.addrs }
  type : f.type ≠ 0
  size : d.size.toNat = f.data.length
  small : f.data.length ≤ maxFile * bsize
  exact : Exact blocks d (blocksFor f.data.length)
  bytes : ∀ x < f.data.length, byteAt blocks d x = f.data.getD x 0
  tail : ∀ x, f.data.length ≤ x → x / bsize < maxFile → blockOf blocks d (x / bsize) ≠ 0 →
    byteAt blocks d x = 0

def File.blocks (f : File) : ℕ := blockCount (blocksFor f.data.length)

/-- The image has the files `files`, the first of which has inode 1. -/
structure Laid (n : ℕ) (s : State) (files : List File) : Prop where
  ok : s.Ok
  freeinode : s.freeinode = files.length + 1
  bound : files.length < n
  owned : Owned (layout n) (inode (layout n) s.view.blocks) noExtra s.view.blocks
  free : ∀ i < n, i = 0 ∨ files.length < i → inode (layout n) s.view.blocks i = Dinode.zero
  file : ∀ k (hk : k < files.length),
    Stores s.view.blocks (inode (layout n) s.view.blocks (k + 1)) files[k]
  total : s.freeblock = nmeta + (files.map File.blocks).sum
  boot : ∀ b < 2 + nlog, s.sect b = Function.update (fun _ _ => 0) 1 superblock b

variable {blocks blocks' : Disk} {d d' : Dinode} {f : File} {files : List File}

namespace Stores

theorem type_eq (h : Stores blocks d f) : d.type = f.type := by rw [h.same]

theorem type_ne (h : Stores blocks d f) : d.type ≠ 0 := by
  rw [h.type_eq]
  exact h.type

theorem mapped (h : Stores blocks d f) : Mapped blocks d := by
  intro k hk
  have hsmall := h.small
  rw [h.size] at hk
  have hlt : k < maxFile := by
    rw [maxFile_eq, bsize_eq] at *
    omega
  refine ⟨hlt, (h.exact.data k hlt).mpr ?_⟩
  unfold blocksFor
  rw [bsize_eq] at *
  omega

theorem congr (h : Stores blocks d f) (href : ∀ p, ref blocks' d p = ref blocks d p)
    (hbyte : ∀ x, x / bsize < maxFile → blockOf blocks d (x / bsize) ≠ 0 →
      byteAt blocks' d x = byteAt blocks d x) : Stores blocks' d f := by
  refine ⟨h.same, h.type, h.size, h.small, ⟨fun k hk => ?_, h.exact.indirect⟩, fun x hx => ?_,
    fun x hx hk h0 => ?_⟩
  · rw [blockOf, href]
    exact h.exact.data k hk
  · obtain ⟨hk, h0⟩ := h.mapped.at (x := x) (by rwa [h.size])
    rw [hbyte x hk h0]
    exact h.bytes x hx
  · rw [blockOf, href] at h0
    rw [hbyte x hk h0]
    exact h.tail x hx hk h0

end Stores

namespace Laid

theorem cases (h : Laid n s files) (hi : i < n) :
    inode (layout n) s.view.blocks i = Dinode.zero ∨
      ∃ k, ∃ hk : k < files.length, i = k + 1 ∧
        Stores s.view.blocks (inode (layout n) s.view.blocks i) files[k] := by
  by_cases hfree : i = 0 ∨ files.length < i
  · exact Or.inl (h.free i hi hfree)
  · right
    obtain ⟨k, rfl⟩ := Nat.exists_eq_succ_of_ne_zero (n := i) (by omega)
    exact ⟨k, by omega, rfl, h.file k (by omega)⟩

theorem noHoles (h : Laid n s files) :
    NoHoles (layout n) (inode (layout n) s.view.blocks) s.view.blocks := by
  intro i hi ht
  obtain hz | ⟨k, hk, -, hst⟩ := h.cases hi
  · rw [hz] at ht
    exact absurd rfl ht
  · exact hst.mapped

theorem sum_set (files : List File) (hk : k < files.length) (f : File) :
    ((files.set k f).map File.blocks).sum + files[k].blocks =
      (files.map File.blocks).sum + f.blocks := by
  induction files generalizing k with
  | nil => exact absurd hk (Nat.not_lt_zero k)
  | cons g files ih =>
    cases k with
    | zero => simp only [List.set_cons_zero, List.map_cons, List.sum_cons, List.getElem_cons_zero]; omega
    | succ k =>
      have := ih (Nat.lt_of_succ_lt_succ hk)
      simp only [List.set_cons_succ, List.map_cons, List.sum_cons, List.getElem_cons_succ]
      omega

theorem appended {s₁ s₂ : State} {din : Dinode} (hn : n < 208) (h : Laid n s files)
    (hk : k < files.length) (p : List UInt8)
    (hsize : files[k].data.length + p.length ≤ maxFile * bsize)
    (happ : Appended n (inode (layout n) s.view.blocks) (k + 1) (fun j => p.getD j 0) s.view
      (inode (layout n) s.view.blocks (k + 1)) files[k].data.length p.length s₁ din)
    (hok : s₂.Ok) (hfi : s₂.freeinode = s.freeinode)
    (hfb : s₂.freeblock + blockCount (blocksFor files[k].data.length) =
      s.freeblock + blockCount (blocksFor (files[k].data.length + p.length)))
    (hview : s₂.view = s₁.view.updated (layout n) (k + 1)
      { din with size := BitVec.ofNat 32 (files[k].data.length + p.length) })
    (hboot : ∀ b < 2 + nlog, s₂.sect b = s₁.sect b) :
    Laid n s₂ (files.set k (files[k].append p)) := by
  have hsb := layout_valid hn
  have hkn : k + 1 < n := lt_of_le_of_lt hk h.bound
  have hst := h.file k hk
  set ip := inode (layout n) s.view.blocks (k + 1) with hip
  set d₁ : Dinode := { din with size := BitVec.ofNat 32 (files[k].data.length + p.length) } with hd₁
  have hw := happ.written
  have hupd : Function.update (inode (layout n) s.view.blocks) (k + 1) ip =
      inode (layout n) s.view.blocks := Function.update_eq_self _ _
  have hfile : FileWritten (layout n) (k + 1) (.kernel fun j => p.getD j 0) s.view ip
      files[k].data.length p.length s₂.view d₁ p.length (files[k].data.length + p.length) := by
    rw [hview]
    refine hw.fileWritten hsb hkn hst.type_ne s.view_free (by rw [hupd]; exact h.owned)
      hst.mapped hst.size.ge hsize ?_ le_rfl le_rfl le_rfl fun _ => rfl
    have hs : din.size.toNat = files[k].data.length := by rw [hw.size, hst.size]
    split_ifs with hlt
    · rfl
    · rw [hd₁, show files[k].data.length + p.length = din.size.toNat by omega, BitVec.ofNat_toNat,
        BitVec.setWidth_eq]
  have hself : inode (layout n) s₂.view.blocks (k + 1) = d₁ := by
    rw [hfile.inodes _ hkn, Function.update_self]
  have hother : ∀ j < n, j ≠ k + 1 →
      inode (layout n) s₂.view.blocks j = inode (layout n) s.view.blocks j := by
    intro j hj hne
    rw [hfile.inodes _ hj, Function.update_of_ne hne]
  have hupdated : ∀ j < n, (Function.update (inode (layout n) s.view.blocks) (k + 1) din j).type ≠ 0 →
      ∀ p, ref s₂.view.blocks (Function.update (inode (layout n) s.view.blocks) (k + 1) din j) p =
        ref s₁.view.blocks (Function.update (inode (layout n) s.view.blocks) (k + 1) din j) p := by
    intro j hj ht p
    rw [hview]
    exact ref_updated hw.owned hsb hkn hj ht p
  have htype : din.type ≠ 0 := by
    rw [hw.type]
    exact hst.type_ne
  have href : ∀ p, ref s₂.view.blocks d₁ p = ref s₁.view.blocks din p := by
    intro p
    have := hupdated (k + 1) hkn (by rwa [Function.update_self]) p
    rw [Function.update_self] at this
    rwa [ref_congr_addrs (d := din) rfl]
  have hbyte : ∀ x, x / bsize < maxFile → blockOf s₁.view.blocks din (x / bsize) ≠ 0 →
      byteAt s₂.view.blocks d₁ x = byteAt s₁.view.blocks din x := by
    intro x hx h0
    have := byteAt_updated (x := x) d₁ hw.owned hsb hkn hkn (by rwa [Function.update_self]) hx
      (by rwa [Function.update_self])
    rw [Function.update_self] at this
    have hd : byteAt s₂.view.blocks d₁ x = byteAt s₂.view.blocks din x := byteAt_congr_addrs rfl
    rw [hd, hview, this]
  refine ⟨hok, ?_, ?_, hfile.owned, ?_, ?_, ?_, ?_⟩
  · rw [hfi, h.freeinode, List.length_set]
  · rw [List.length_set]
    exact h.bound
  · intro i hi hfree
    rw [List.length_set] at hfree
    rw [hother i hi (by omega)]
    exact h.free i hi hfree
  · intro j hj
    rw [List.length_set] at hj
    by_cases hjk : j = k
    · subst hjk
      rw [hself, List.getElem_set_self]
      have hlen := files[j].length_append p
      refine ⟨?_, hst.type, ?_, by rwa [hlen], ⟨fun k hk => ?_, ?_⟩, fun x hx => ?_,
        fun x hx hk h0 => ?_⟩
      · rw [hfile.same, hst.same]
        rfl
      · rw [hfile.size, hst.size, hlen]
        omega
      · rw [blockOf, href, hlen]
        exact happ.exact.data k hk
      · rw [hlen]
        exact happ.exact.indirect
      · show _ = (files[j].data ++ p).getD x 0
        by_cases hxl : x < files[j].data.length
        · rw [hfile.old x (by rwa [hst.size]) (Or.inl hxl), List.getD_append _ _ _ _ hxl]
          exact hst.bytes x hxl
        · have hnew := hfile.new (x - files[j].data.length) (by omega) _ rfl
          rw [Nat.add_sub_cancel' (by omega)] at hnew
          rw [hnew, List.getD_append_right _ _ _ _ (by omega)]
      · rw [blockOf, href] at h0
        rw [hlen] at hx
        rw [hbyte x hk h0]
        exact happ.tail x hx hk h0
    · have hjn : j + 1 < n := by
        have := h.bound
        omega
      rw [List.getElem_set_ne (Ne.symm hjk), hother (j + 1) hjn (by omega)]
      have hstj := h.file j hj
      have hne : j + 1 ≠ k + 1 := by omega
      have hown : Owned (layout n) (Function.update (inode (layout n) s.view.blocks) (k + 1) ip)
          noExtra s.view.blocks := by
        rw [hupd]
        exact h.owned
      have htj : (Function.update (inode (layout n) s.view.blocks) (k + 1) din (j + 1)).type ≠ 0 := by
        rw [Function.update_of_ne hne]
        exact hstj.type_ne
      have hrefj : ∀ p, ref s₁.view.blocks (inode (layout n) s.view.blocks (j + 1)) p =
          ref s.view.blocks (inode (layout n) s.view.blocks (j + 1)) p :=
        hw.other_ref hown hkn htype hjn hne hstj.type_ne
      refine hstj.congr (fun p => ?_) fun x hx h0 => ?_
      · have := hupdated (j + 1) hjn htj p
        rw [Function.update_of_ne hne] at this
        rw [this, hrefj]
      · have := byteAt_updated (x := x) d₁ hw.owned hsb hkn hjn htj hx
          (by rw [Function.update_of_ne hne, blockOf, hrefj]; exact h0)
        rw [Function.update_of_ne hne] at this
        rw [hview, this]
        exact hw.other_byte hown hkn htype hjn hne hstj.type_ne hx h0
  · have hsum := sum_set files hk (files[k].append p)
    have htotal := h.total
    simp only [File.blocks, File.length_append] at hsum htotal ⊢
    omega
  · intro b hb
    rw [hboot b hb, ← h.boot b hb]
    rw [nlog_eq] at hb
    have := hw.low b (by rw [bmapstart_layout]; omega)
    rwa [State.view_blocks_of_ne (by omega), State.view_blocks_of_ne (by omega)] at this

end Laid

/-- `iappend` adds the bytes to the end of the file. -/
theorem iappend_spec (hn : n < 208) (h : Laid n s files) (hk : k < files.length) (p : List UInt8)
    (hsize : files[k].data.length + p.length ≤ maxFile * bsize)
    (hroom : nmeta + ((files.set k (files[k].append p)).map
      File.blocks).sum ≤ fssize) :
    (iappend (k + 1) p).Returns interp
      (fun _ s' => Laid n s' (files.set k (files[k].append p))) s := by
  have hkn : k + 1 < n := lt_of_le_of_lt hk h.bound
  have hroom' : s.freeblock + blockCount (blocksFor (files[k].data.length + p.length)) ≤
      fssize + blockCount (blocksFor files[k].data.length) := by
    have hsum := Laid.sum_set files hk (files[k].append p)
    have htotal := h.total
    simp only [File.blocks, File.length_append] at hsum htotal hroom
    omega
  have hsb := layout_valid hn
  have hst := h.file k hk
  set ip := inode (layout n) s.view.blocks (k + 1) with hip
  have hupd : Function.update (inode (layout n) s.view.blocks) (k + 1) ip =
      inode (layout n) s.view.blocks := Function.update_eq_self _ _
  have ho : Owned (layout n) (Function.update (inode (layout n) s.view.blocks) (k + 1) ip) noExtra
      s.view.blocks := by
    rw [hupd]
    exact h.owned
  have hm : NoHoles (layout n) (Function.update (inode (layout n) s.view.blocks) (k + 1) ip)
      s.view.blocks := by
    rw [hupd]
    exact h.noHoles
  unfold iappend
  refine (rinode_spec hn hkn h.ok).bind ?_
  rintro _ s' ⟨rfl, hs⟩
  rw [hs, ← hip, hst.size]
  have happ : Appended n (inode (layout n) s.view.blocks) (k + 1) (fun j => p.getD j 0) s.view ip
      files[k].data.length 0 s ip := ⟨.refl _ _ ho, h.ok, hst.exact, hst.tail⟩
  refine (appendLoop_spec hn hkn hst.type_ne p.length p happ le_rfl ?_ (by rwa [Nat.zero_add])
    (by rwa [Nat.zero_add, Nat.add_zero])).bind ?_
  · intro j hj
    rw [Nat.zero_add, List.getD_eq_getElem _ _ hj]
  · rintro ⟨off, din⟩ s₁ ⟨hoff, hfi, happ₁, hfb⟩
    simp only [Nat.zero_add, Nat.add_zero] at hoff hfi happ₁ hfb ⊢
    subst hoff
    refine (winode_spec hn hkn happ₁.ok _).mono ?_
    rintro - s₂ ⟨hok₂, hfi₂, hfb₂, hview, hboot⟩
    exact h.appended hn hk p hsize happ₁ hok₂ (hfi₂.trans hfi) (by rw [hfb₂]; exact hfb) hview
      hboot

theorem blocks_le {f g : File} (h : f.data.length ≤ g.data.length) : f.blocks ≤ g.blocks :=
  blockCount_mono (blocksFor_mono h)

theorem appendAll_spec (hn : n < 208) (ps : List (List UInt8)) (h : Laid n s files)
    (hk : k < files.length) (hsize : files[k].data.length + ps.flatten.length ≤ maxFile * bsize)
    (hroom : nmeta + ((files.set k (files[k].append ps.flatten)).map
      File.blocks).sum ≤ fssize) :
    (appendAll (k + 1) ps).Returns interp
      (fun _ s' => Laid n s' (files.set k (files[k].append ps.flatten))) s := by
  induction ps generalizing s files with
  | nil =>
    refine .ret ?_
    rw [List.flatten_nil, File.append_nil, List.set_getElem_self]
    exact h
  | cons p ps ih =>
    rw [List.flatten_cons, List.length_append] at hsize
    rw [List.flatten_cons, ← File.append_append] at hroom ⊢
    refine (iappend_spec hn h hk p (by omega) ?_).bind ?_
    · have h₁ := Laid.sum_set files hk (files[k].append p)
      have h₂ := Laid.sum_set files hk ((files[k].append p).append ps.flatten)
      have h₃ := blocks_le (f := files[k].append p) (g := (files[k].append p).append ps.flatten)
        (by simp only [File.length_append]; omega)
      omega
    · intro _ s' hs'
      have hrest := ih hs' (by rwa [List.length_set]) ?_ ?_
      · simpa only [List.getElem_set_self, List.set_set] using hrest
      · simp only [List.getElem_set_self, File.length_append]
        omega
      · simpa only [List.getElem_set_self, List.set_set] using hroom

theorem refsOf_fresh (type : BitVec 16) {b : ℕ} (hb : b ≠ 0) :
    refsOf blocks { Dinode.zero with type := type, nlink := 1, size := 0 } b = 0 :=
  (refsOf_congr_addrs rfl rfl).trans (refsOf_zero type hb)

theorem stores_fresh (blocks : Disk) {type : BitVec 16} (ht : type ≠ 0) :
    Stores blocks { Dinode.zero with type := type, nlink := 1, size := 0 } ⟨type, []⟩ := by
  have haddr : ∀ k, Dinode.addr { Dinode.zero with type := type, nlink := 1, size := 0 } k = 0 :=
    Dinode.addr_zero
  have hnone : blocksFor 0 = 0 := by decide
  have hblock : ∀ k, blockOf blocks { Dinode.zero with type := type, nlink := 1, size := 0 } k = 0 := by
    intro k
    rw [blockOf, ref, haddr, haddr, if_pos rfl, ite_self]
  refine ⟨rfl, ht, rfl, Nat.zero_le _, ⟨fun k _ => ?_, ?_⟩, fun x hx => absurd hx (Nat.not_lt_zero x),
    fun x _ _ h0 => absurd (hblock _) h0⟩
  · exact iff_of_false (fun h => h (hblock k)) (hnone.symm ▸ Nat.not_lt_zero k)
  · rw [haddr]
    exact iff_of_false (fun h => h rfl) (hnone.symm ▸ Nat.not_lt_zero ndirect)

theorem ialloc_spec (hn : n < 208) {type : BitVec 16} (ht : type ≠ 0) (h : Laid n s files)
    (hroom : files.length + 1 < n) :
    (ialloc type).Returns interp (fun inum s' => inum = files.length + 1 ∧
      Laid n s' (files ++ [⟨type, []⟩])) s := by
  have hsb := layout_valid hn
  have hzero := h.free (files.length + 1) hroom (Or.inr (Nat.lt_succ_self _))
  unfold ialloc
  refine .op rfl ?_
  rw [h.freeinode]
  set d : Dinode := { Dinode.zero with type := type, nlink := 1, size := 0 } with hd
  have hown : Owned (layout n) (Function.update (inode (layout n) s.view.blocks) (files.length + 1) d)
      noExtra s.view.blocks := by
    apply h.owned.move noExtra hroom hsb
    intro b hb
    rw [hzero, refsOf_fresh type hb, refsOf, if_pos (by rfl)]
  refine (winode_spec (s := { s with freeinode := files.length + 1 + 1 }) hn hroom
    ⟨h.ok.size, h.ok.low, h.ok.high, h.ok.clear⟩ d).bind ?_
  rintro - s' ⟨hok, hfi, hfb, hview, hboot⟩
  change s'.view = s.view.updated (layout n) (files.length + 1) d at hview
  have hinode : inode (layout n) s'.view.blocks =
      Function.update (inode (layout n) s.view.blocks) (files.length + 1) d := by
    rw [hview, inode_updated]
  refine .ret ⟨rfl, hok, ?_, ?_, ?_, ?_, ?_, ?_, fun b hb => (hboot b hb).trans (h.boot b hb)⟩
  · rw [hfi, List.length_append]
    rfl
  · rwa [List.length_append]
  · rw [hview]
    exact hown.updated hsb hroom
  · intro i hi hfree
    rw [List.length_append, List.length_singleton] at hfree
    rw [hinode, Function.update_of_ne (by omega)]
    exact h.free i hi (by omega)
  · intro k hk
    rw [List.length_append, List.length_singleton] at hk
    rw [hinode]
    by_cases hkl : k < files.length
    · have hst := h.file k hkl
      have hkn : k + 1 < n := by omega
      rw [Function.update_of_ne (by omega), List.getElem_append_left hkl, hview]
      exact hst.congr (fun p => ref_updated h.owned hsb hroom hkn hst.type_ne p)
        fun x hx h0 => byteAt_updated d h.owned hsb hroom hkn hst.type_ne hx h0
    · obtain rfl : k = files.length := by omega
      rw [Function.update_self, List.getElem_concat_length]
      · exact stores_fresh _ ht
      · rfl
  · have hempty : File.blocks ⟨type, []⟩ = 0 := by
      show blockCount (blocksFor 0) = 0
      decide
    rw [hfb, List.map_append, List.sum_append, List.map_singleton, List.sum_singleton, hempty]
    exact h.total

end Xv6.Mkfs
