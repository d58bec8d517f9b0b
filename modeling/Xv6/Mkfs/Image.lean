import Xv6.Mkfs.Laid

/-! The image that `main` writes. -/
namespace Xv6.Mkfs

open Lib Fs

variable {n : ℕ} {s : State} {args : List Input}

/-- The root's entries for the files on the command line, the first of which gets inode `inum`. -/
def entries (inum : ℕ) : List Input → List UInt8
  | [] => []
  | a :: as => Dirent.encode inum a.shortname ++ entries (inum + 1) as

theorem length_entries (inum : ℕ) (args : List Input) :
    (entries inum args).length = Dirent.bytes * args.length := by
  induction args generalizing inum with
  | nil => rfl
  | cons a as ih =>
    rw [entries, List.length_append, ih, Dirent.length_encode, List.length_cons]
    ring

def Input.file (a : Input) : File := ⟨tFile, a.content⟩

def rootFile (args : List Input) : File :=
  ⟨tDir, Dirent.encode rootIno (lit ".") ++ Dirent.encode rootIno (lit "..") ++ entries 2 args⟩

def filesOf (args : List Input) : List File := rootFile args :: args.map Input.file

/-- The file passes the assertions of `main` and `iappend`. -/
structure Input.Accepted (a : Input) : Prop where
  slash : 47 ∉ a.basename
  name : a.shortname.length ≤ dirsiz
  size : a.content.length ≤ maxFile * bsize

/-- The files are accepted and there are enough inodes and blocks. -/
structure Fits (args : List Input) : Prop where
  accepted : ∀ a ∈ args, a.Accepted
  inodes : args.length + 1 ≤ ninodes
  blocks : nmeta + ((filesOf args).map File.blocks).sum ≤ fssize

theorem iappend_root (hn : n < 208) {root : File} {fs : List File} (h : Laid n s (root :: fs))
    (p : List UInt8) (hsize : root.data.length + p.length ≤ maxFile * bsize)
    (hroom : nmeta + ((root.append p).blocks + (fs.map File.blocks).sum) ≤ fssize) :
    (iappend rootIno p).Returns interp (fun _ s' => Laid n s' (root.append p :: fs)) s := by
  apply iappend_spec (k := 0) hn h (Nat.zero_lt_succ _) p hsize
  simpa using hroom

theorem appendAll_last (hn : n < 208) {f : File} {fs : List File} (ps : List (List UInt8))
    (h : Laid n s (fs ++ [f])) (hsize : f.data.length + ps.flatten.length ≤ maxFile * bsize)
    (hroom : nmeta + ((fs.map File.blocks).sum + (f.append ps.flatten).blocks) ≤ fssize) :
    (appendAll (fs.length + 1) ps).Returns interp
      (fun _ s' => Laid n s' (fs ++ [f.append ps.flatten])) s := by
  have hk : fs.length < (fs ++ [f]).length := by simp
  have hlast : (fs ++ [f])[fs.length] = f := by simp
  have hset : (fs ++ [f]).set fs.length (f.append ps.flatten) = fs ++ [f.append ps.flatten] := by
    simp
  have hall := appendAll_spec hn ps h hk
  simp only [hlast, hset] at hall
  apply hall hsize
  simpa using hroom

theorem blocks_empty (type : BitVec 16) : File.blocks ⟨type, []⟩ = 0 := by
  show blockCount (blocksFor 0) = 0
  decide

/-- The loop over the arguments adds one file and one entry of the root for each. -/
theorem addFiles_spec (hn : n < 208) (args : List Input) {root : File} {fs : List File}
    (h : Laid n s (root :: fs)) (hacc : ∀ a ∈ args, a.Accepted)
    (hbound : fs.length + 1 + args.length < n)
    (hroot : root.data.length + Dirent.bytes * args.length ≤ maxFile * bsize)
    (hroom : nmeta + ((root.append (entries (fs.length + 2) args)).blocks +
      (fs.map File.blocks).sum + ((args.map Input.file).map File.blocks).sum) ≤ fssize) :
    (addFiles rootIno args).Returns interp (fun _ s' => Laid n s'
      (root.append (entries (fs.length + 2) args) :: (fs ++ args.map Input.file))) s := by
  induction args generalizing s root fs with
  | nil =>
    refine .ret ?_
    rw [entries, File.append_nil, List.map_nil, List.append_nil]
    exact h
  | cons a as ih =>
    have ha := hacc a List.mem_cons_self
    rw [List.length_cons, Nat.mul_succ] at hroot
    rw [List.length_cons] at hbound
    rw [entries, List.map_cons, ← File.append_append] at hroom ⊢
    rw [List.map_cons, List.sum_cons] at hroom
    set root₁ := root.append (Dirent.encode (fs.length + 2) a.shortname) with hroot₁
    have hlen : root₁.data.length = root.data.length + Dirent.bytes := by simp [hroot₁]
    have hle : root₁.blocks ≤ (root₁.append (entries (fs.length + 2 + 1) as)).blocks :=
      blocks_le (by simp)
    rw [addFiles, if_neg ha.slash, if_neg (not_lt.mpr ha.name)]
    refine (ialloc_spec hn (by decide) h (by rw [List.length_cons]; omega)).bind ?_
    rintro inum s₁ ⟨rfl, h₁⟩
    rw [show (root :: fs).length + 1 = fs.length + 2 from rfl]
    change Laid n s₁ (root :: (fs ++ [⟨tFile, []⟩])) at h₁
    refine (iappend_root hn h₁ _ (by rw [Dirent.length_encode]; omega) ?_).bind ?_
    · rw [← hroot₁, List.map_append, List.sum_append, List.map_singleton, List.sum_singleton,
        blocks_empty]
      omega
    intro _ s₂ h₂
    rw [← hroot₁] at h₂
    rw [← List.cons_append] at h₂
    refine (appendAll_last hn a.reads h₂ ?_ ?_).bind ?_
    · exact (Nat.zero_add _).trans_le ha.size
    · rw [List.map_cons, List.sum_cons]
      change nmeta + (_ + a.file.blocks) ≤ fssize
      omega
    intro _ s₃ h₃
    change Laid n s₃ (root₁ :: (fs ++ [a.file])) at h₃
    have hih := ih h₃ (fun b hb => hacc b (List.mem_cons_of_mem a hb)) ?_ (by omega) ?_
    · simpa using hih
    · rw [List.length_append, List.length_singleton]
      omega
    · simp only [List.length_append, List.length_singleton, List.map_append, List.map_cons,
        List.map_nil, List.sum_append, List.sum_cons, List.sum_nil]
      rw [show fs.length + 1 + 2 = fs.length + 2 + 1 by omega]
      omega

theorem clear_spec {m : ℕ} (k : ℕ) (s : State) (hsize : s.size = m) (hz : s.sect = fun _ _ => 0) :
    (clear (List.range' m k)).Returns interp
      (fun _ s' => s' = { s with size := m + k }) s := by
  induction k generalizing m s with
  | zero =>
    refine .ret ?_
    rw [Nat.add_zero, ← hsize]
  | succ k ih =>
    rw [List.range'_succ, clear]
    refine .op (r := ()) (t := { s with size := m + 1 }) ?_ ?_
    · simp only [interp]
      rw [hsize, hz, Nat.max_eq_right (Nat.le_succ m), Function.update_eq_self]
    · refine (ih { s with size := m + 1 } rfl hz).mono ?_
      rintro - _ rfl
      rw [Nat.add_right_comm, Nat.add_assoc]

def State.cleared : State := ⟨fssize, Function.update (fun _ _ => 0) 1 superblock, 1, nmeta⟩

theorem laid_cleared (hn : n < 208) (h0 : 0 < n) : Laid n State.cleared [] := by
  have hok : State.cleared.Ok := by
    refine ⟨rfl, le_rfl, by decide, fun b hb => ?_⟩
    have : b ≠ 1 := by
      rintro rfl
      exact absurd hb (by decide)
    show Function.update (fun _ _ => 0) 1 superblock b = fun _ => 0
    rw [Function.update_of_ne this]
  have hinode : ∀ i < n, inode (layout n) State.cleared.view.blocks i = Dinode.zero := by
    intro i hi
    have hlt := iblock_lt_bmapstart hn hi
    have hge := le_iblock i
    rw [inode, ← iblock_layout, State.view_blocks_of_ne (by omega)]
    show readDinode (Function.update (fun _ _ => 0) 1 superblock (iblock i)) (i % ipb) = Dinode.zero
    rw [Function.update_of_ne (by omega)]
    unfold readDinode
    simp only [Bytes.getLE_zero]
    rfl
  refine ⟨hok, rfl, h0, ⟨fun b hb => ?_, fun b hb => ?_⟩, fun i hi _ => hinode i hi,
    fun k hk => absurd hk (Nat.not_lt_zero k), rfl, ?_⟩
  · have hnone : refCount (layout n) (inode (layout n) State.cleared.view.blocks)
        State.cleared.view.blocks b = 0 := by
      apply Finset.sum_eq_zero
      intro i hi
      rw [hinode i (Finset.mem_range.mp hi), refsOf, if_pos (by rfl)]
    rw [hnone, if_neg]
    · rfl
    · rintro ⟨hd, hu⟩
      rw [State.used_view hok (lt_trans hd.2 fssize_lt_bpb), decide_eq_true_iff] at hu
      have := hd.1
      rw [dataStart_layout] at this
      exact absurd this (not_le.mpr hu)
  · rw [dataStart_layout] at hb
    rw [State.used_view hok (hb.trans (by decide)), decide_eq_true_iff]
    exact hb
  · exact fun _ _ => rfl

/-- The last steps of `main`: the size of the root is rounded up and the free bit map written. -/
def Finished (n : ℕ) (args : List Input) (s : State) : Prop :=
  ∃ s₁, Laid n s₁ (filesOf args) ∧ s.freeinode = s₁.freeinode ∧ s.freeblock = s₁.freeblock ∧
    s.sect = (s₁.view.updated (layout n) rootIno { inode (layout n) s₁.view.blocks rootIno with
      size := BitVec.ofNat 32 (((rootFile args).data.length / bsize + 1) * bsize) }).blocks

theorem length_rootFile (args : List Input) :
    (rootFile args).data.length = Dirent.bytes * (args.length + 2) := by
  simp only [rootFile, List.length_append, Dirent.length_encode, length_entries]
  ring

/-- `mkfs` finishes on every input that fits. -/
theorem main_spec (hn : n < 208) (h : Fits args) (hargs : args.length + 1 < n) :
    (main args).Returns interp (fun _ s => Finished n args s) State.start := by
  have hroot := length_rootFile args
  have hinodes := h.inodes
  have hblocks := h.blocks
  rw [ninodes_eq] at hinodes
  rw [filesOf, List.map_cons, List.sum_cons] at hblocks
  have hsmall : (rootFile args).data.length ≤ maxFile * bsize := by
    rw [hroot, Dirent.bytes_eq, maxFile_eq, bsize_eq]
    omega
  unfold main
  rw [List.range_eq_range']
  refine (clear_spec fssize State.start rfl rfl).bind ?_
  rintro - _ rfl
  refine .op (r := ()) (t := State.cleared) ?_ ?_
  · simp only [interp, State.start, State.cleared]
    rw [show max (0 + fssize) (1 + 1) = fssize by decide]
  refine (ialloc_spec hn (by decide) (laid_cleared hn (by omega)) (by simp; omega)).bind ?_
  rintro _ s₁ ⟨rfl, h₁⟩
  rw [if_neg (by decide)]
  change Laid n s₁ [⟨tDir, []⟩] at h₁
  have hle : ∀ f : File, f.data.length ≤ (rootFile args).data.length →
      nmeta + (f.blocks + (([] : List File).map File.blocks).sum) ≤ fssize := by
    intro f hf
    have := blocks_le hf
    simp only [List.map_nil, List.sum_nil]
    omega
  refine (iappend_root hn h₁ (Dirent.encode rootIno (lit ".")) (by decide) (hle _ ?_)).bind ?_
  · rw [hroot, File.length_append, Dirent.length_encode, Dirent.bytes_eq]
    simp only [List.length_nil]
    omega
  intro _ s₂ h₂
  refine (iappend_root hn h₂ (Dirent.encode rootIno (lit "..")) (by decide) (hle _ ?_)).bind ?_
  · rw [hroot, File.length_append, File.length_append, Dirent.length_encode, Dirent.length_encode,
      Dirent.bytes_eq]
    simp only [List.length_nil]
    omega
  intro _ s₃ h₃
  refine (addFiles_spec hn args h₃ h.accepted (by simp only [List.length_nil]; omega) ?_ ?_).bind ?_
  · rw [hroot] at hsmall
    rw [File.length_append, File.length_append, Dirent.length_encode, Dirent.length_encode]
    simp only [List.length_nil]
    rw [Dirent.bytes_eq] at *
    omega
  · change nmeta + ((rootFile args).blocks + 0 + _) ≤ fssize
    omega
  intro _ s₄ h₄
  change Laid n s₄ (filesOf args) at h₄
  have hst := h₄.file 0 (Nat.zero_lt_succ _)
  have hsize : (inode (layout n) s₄.view.blocks rootIno).size.toNat = (rootFile args).data.length :=
    hst.size
  refine (rinode_spec hn (by show 1 < n; omega) h₄.ok).bind ?_
  rintro d s' ⟨hd, hs⟩
  rw [hs, hd, show List.length ([] : List File) + 1 = rootIno from rfl, hsize]
  refine (winode_spec hn (by show 1 < n; omega) h₄.ok _).bind ?_
  rintro - s₅ ⟨hok, hfi, hfb, hview, -⟩
  refine .op rfl ?_
  have hbpb : s₅.freeblock < bpb := hok.high.trans_lt (by decide)
  show (balloc s₅.freeblock).Returns interp _ _
  rw [balloc, if_pos hbpb]
  refine .op rfl (.ret ⟨s₄, h₄, hfi, hfb, ?_⟩)
  rw [← hview]
  rfl

/-- The finished image. `root` is the inode of the root before its size is rounded up. -/
structure IsImage (n : ℕ) (args : List Input) (s : State) (root : Dinode) : Prop where
  freeinode : s.freeinode = args.length + 2
  root_inode : inode (layout n) s.sect rootIno =
    { root with size := BitVec.ofNat 32 (((rootFile args).data.length / bsize + 1) * bsize) }
  root : Stores s.sect root (rootFile args)
  file : ∀ k (hk : k < args.length),
    Stores s.sect (inode (layout n) s.sect (k + 2)) args[k].file
  free : ∀ i < n, i = 0 ∨ args.length + 1 < i → inode (layout n) s.sect i = Dinode.zero
  owned : Owned (layout n) (inode (layout n) s.sect) noExtra s.sect
  low : nmeta ≤ s.freeblock
  high : s.freeblock ≤ fssize
  used : ∀ b < bpb, used (layout n) s.sect b = decide (b < s.freeblock)
  boot : ∀ b < 2 + nlog, s.sect b = Function.update (fun _ _ => 0) 1 superblock b

theorem Finished.isImage (hn : n < 208) (h : Finished n args s) : ∃ root, IsImage n args s root := by
  obtain ⟨s₁, hl, hfi, hfb, hsect⟩ := h
  have hsb := layout_valid hn
  have hlen : (filesOf args).length = args.length + 1 := by simp [filesOf]
  have hbound := hl.bound
  have h1 : rootIno < n := by
    show 1 < n
    omega
  set d := inode (layout n) s₁.view.blocks rootIno with hd
  set d₁ : Dinode := { d with
    size := BitVec.ofNat 32 (((rootFile args).data.length / bsize + 1) * bsize) } with hd₁
  have hst : Stores s₁.view.blocks d (rootFile args) := hl.file 0 (by omega)
  have hinode : inode (layout n) s.sect = Function.update (inode (layout n) s₁.view.blocks) rootIno d₁ := by
    rw [hsect, inode_updated]
  have hkeep : ∀ i < n, (inode (layout n) s₁.view.blocks i).type ≠ 0 → ∀ f,
      Stores s₁.view.blocks (inode (layout n) s₁.view.blocks i) f →
        Stores s.sect (inode (layout n) s₁.view.blocks i) f := by
    intro i hi ht f hf
    rw [hsect]
    exact hf.congr (fun p => ref_updated hl.owned hsb h1 hi ht p)
      fun x hx h0 => byteAt_updated d₁ hl.owned hsb h1 hi ht hx h0
  have hown : Owned (layout n) (Function.update (inode (layout n) s₁.view.blocks) rootIno d₁) noExtra
      s₁.view.blocks := by
    apply hl.owned.move noExtra h1 hsb
    intro b _
    have hrefs : refsOf s₁.view.blocks d₁ b = refsOf s₁.view.blocks d b := refsOf_congr_addrs rfl rfl
    rw [hrefs]
  refine ⟨d, ?_, ?_, ?_, ?_, ?_, ?_, ?_, ?_, ?_, ?_⟩
  · rw [hfi, hl.freeinode, hlen]
  · rw [hinode, Function.update_self]
  · exact hkeep rootIno h1 hst.type_ne _ hst
  · intro k hk
    have hf := hl.file (k + 1) (by omega)
    have hne : k + 2 ≠ rootIno := by
      show k + 2 ≠ 1
      omega
    rw [hinode, Function.update_of_ne hne]
    have hget : (filesOf args)[k + 1] = args[k].file := by simp [filesOf]
    rw [hget] at hf
    exact hkeep (k + 2) (by omega) hf.type_ne _ hf
  · intro i hi hfree
    have hne : i ≠ rootIno := by
      show i ≠ 1
      omega
    rw [hinode, Function.update_of_ne hne]
    exact hl.free i hi (by omega)
  · rw [hsect]
    exact hown.updated hsb h1
  · rw [hfb]
    exact hl.ok.low
  · rw [hfb]
    exact hl.ok.high
  · intro b hb
    rw [hsect, hfb, ← State.used_view (n := n) hl.ok hb, used, used,
      View.blocks_updated_of_le hsb h1 le_bblock]
  · intro b hb
    have := le_iblock rootIno
    rw [nlog_eq] at hb this
    rw [hsect, View.updated, ← iblock_layout, View.blocks_set, Function.update_of_ne (by omega),
      State.view_blocks_of_ne (by omega), hl.boot b hb]

theorem main_isImage (hn : n < 208) (h : Fits args) (hargs : args.length + 1 < n) : ∃ s root,
    (main args).run interp State.start = .ok ((), s) ∧ IsImage n args s root := by
  obtain ⟨_, s, hrun, hfin⟩ := (main_spec hn h hargs).run
  obtain ⟨root, him⟩ := hfin.isImage hn
  exact ⟨s, root, hrun, him⟩

end Xv6.Mkfs
