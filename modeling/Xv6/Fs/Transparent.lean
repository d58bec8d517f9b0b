import Xv6.Bio.Transparency
import Xv6.Fs.Inode

/-! The buffer cache under `readi` and `writei`: transparent unless `either_copyin` fails in the
middle of a block, because `writei` then releases the buffer without `log_write`. -/
namespace Xv6.Fs

open Bio Lib Log

variable {sb : Superblock} {ip : Dinode}

theorem disciplined_bzero (b : ℕ) : Disciplined (bzero b) := by
  unfold bzero
  apply Disciplined.bread
  intro c
  apply Disciplined.update
  exact .brelse b (.ret ())

theorem disciplined_ballocFrom (bs : List ℕ) : Disciplined (ballocFrom sb bs) := by
  induction bs with
  | nil => exact .ret 0
  | cons b bs ih =>
    rw [ballocFrom]
    apply Disciplined.bread
    intro bp
    split
    · apply Disciplined.update
      apply Disciplined.brelse
      exact (disciplined_bzero _).bind fun _ => .ret _
    · exact .brelse _ ih

theorem disciplined_balloc : Disciplined (balloc sb) := disciplined_ballocFrom _

theorem disciplined_bmapDirect (k : ℕ) : Disciplined (bmapDirect sb ip k) := by
  unfold bmapDirect
  split_ifs
  · refine disciplined_balloc.bind fun addr => ?_
    split_ifs
    · exact .ret _
    · exact .ret _
  · exact .ret _

theorem disciplined_bmap (bn : ℕ) : Disciplined (bmap sb ip bn) := by
  unfold bmap
  split_ifs
  · exact disciplined_bmapDirect bn
  · refine (disciplined_bmapDirect ndirect).bind ?_
    rintro ⟨ind, ip'⟩
    simp only
    split_ifs
    · exact .ret _
    · apply Disciplined.bread
      intro bp
      split_ifs
      · refine disciplined_balloc.bind fun addr => ?_
        split_ifs
        · exact .brelse ind (.ret _)
        · apply Disciplined.update
          exact .brelse ind (.ret _)
      · exact .brelse ind (.ret _)
  · exact .panic _

theorem disciplined_iupdate (i : ℕ) : Disciplined (iupdate sb i ip) := by
  unfold iupdate
  apply Disciplined.bread
  intro bp
  apply Disciplined.update
  exact .brelse _ (.ret ())

theorem disciplined_readiLoop (dst : Dst) (n fuel : ℕ) (ip : Dinode) (tot off : ℕ)
    (out : List UInt8) : Disciplined (readiLoop sb dst n fuel ip tot off out) := by
  induction fuel generalizing ip tot off out with
  | zero => exact .ret _
  | succ fuel ih =>
    rw [readiLoop]
    split_ifs
    · refine (disciplined_bmap _).bind ?_
      rintro ⟨addr, ip'⟩
      simp only
      split_ifs
      · exact .ret _
      · apply Disciplined.bread
        intro bp
        exact .brelse addr (.ret _)
      · apply Disciplined.bread
        intro bp
        exact .brelse addr (ih _ _ _ _)
    · exact .ret _

theorem disciplined_readi (dst : Dst) (off n : ℕ) : Disciplined (readi sb ip dst off n) := by
  unfold readi
  simp only
  split_ifs
  · exact .ret _
  · exact disciplined_readiLoop dst _ _ ip 0 off []
  · exact disciplined_readiLoop dst _ _ ip 0 off []

theorem disciplined_storeBytes {α : Type} (addr : ℕ) (bp : Block) (o : ℕ) (l : List UInt8)
    {k : Code α} (hk : Disciplined k) :
    Disciplined (storeBytes addr bp o l >>= fun _ => logWrite addr >>= fun _ => k) := by
  unfold storeBytes
  split_ifs
  · exact .logWrite addr hk
  · exact .update addr _ hk

theorem disciplined_writeiLoop {src : Src} {off n : ℕ} (hsrc : NoPartialCopy src off n) (fuel : ℕ)
    (ip : Dinode) (tot : ℕ) (hal : tot < n → tot = 0 ∨ (off + tot) % bsize = 0) :
    Disciplined (writeiLoop sb src n fuel ip tot (off + tot)) := by
  induction fuel generalizing ip tot with
  | zero => exact .ret _
  | succ fuel ih =>
    rw [writeiLoop]
    split_ifs with hlt
    · refine (disciplined_bmap _).bind ?_
      rintro ⟨addr, ip'⟩
      simp only
      split_ifs with h0 hok
      · exact .ret _
      · -- the copy failed, so nothing was stored
        rw [hsrc tot hlt (hal hlt) hok]
        apply Disciplined.bread
        intro bp
        exact .brelse addr (.ret _)
      · apply Disciplined.bread
        intro bp
        apply disciplined_storeBytes
        apply Disciplined.brelse
        rw [Nat.add_assoc]
        apply ih
        intro hlt'
        right
        rw [bsize_eq] at *
        omega
    · exact .ret _

/-- `writei` records what it changes if no copy fails after it has stored something. -/
theorem disciplined_writei {src : Src} {off n : ℕ} (i : ℕ) (hsrc : NoPartialCopy src off n) :
    Disciplined (writei sb i ip src off n) := by
  unfold writei
  split_ifs
  · exact .ret _
  · exact .ret _
  · refine (disciplined_writeiLoop hsrc n ip 0 fun _ => Or.inl rfl).bind ?_
    rintro ⟨tot, off', ip'⟩
    exact (disciplined_iupdate i).bind fun _ => .ret _

/-- Calls of `readi`, calls of `writei` with sources that satisfy `P`, and other code on buffers
that records what it changes. -/
inductive Calls (sb : Superblock) (P : Src → ℕ → ℕ → Prop) : Code Unit → Prop
  | readi (ip : Dinode) (dst : Dst) (off n : ℕ) : Calls sb P (Fs.readi sb ip dst off n >>= fun _ => .ret ())
  | writei (i : ℕ) (ip : Dinode) (src : Src) (off n : ℕ) (h : P src off n) :
      Calls sb P (Fs.writei sb i ip src off n >>= fun _ => .ret ())
  | other (p : Code Unit) (h : Disciplined p) : Calls sb P p

theorem Calls.disciplined {p : Code Unit} (h : Calls sb NoPartialCopy p) : Disciplined p := by
  cases h with
  | readi ip dst off n => exact (disciplined_readi dst off n).bind fun _ => .ret ()
  | writei i ip src off n h => exact (disciplined_writei i h).bind fun _ => .ret ()
  | other p h => exact h

/-- In every interleaving of these calls with `commit`: a valid buffer that nobody has locked and
whose block is not listed has the contents of the disk; a home block shows something else only
after an operation has written to its buffer, and that is what `bread` returns; and a `writei` that
returns `tot` changes no byte of the file outside the `tot` bytes from `off` on. -/
theorem cache_transparent {N : ℕ} {s : Kernel N}
    (h : (machine N sb.geometry (Calls sb NoPartialCopy)).Reachable s) :
    (∀ i b, s.bcache.Names i rootDev b → (s.bcache.buf i).valid = true → s.owner i = none →
      b ∉ s.log.lh → (s.bcache.buf i).data = s.disk b) ∧
    (∀ t b, (machine N sb.geometry (Calls sb NoPartialCopy)).step s t → sb.geometry.Home b →
      t.view b = s.view b ∨ ∃ p c k, s.committer ≠ some p ∧
        s.pc p = .run (.op (.store b c) k) ∧ t.view b = c) ∧
    (∀ p i b k, s.pc p = .filling i b k →
      (if (s.bcache.buf i).valid then (s.bcache.buf i).data else s.disk b) = s.view b) ∧
    (∀ (v : View) (i : ℕ) (ip : Dinode) (src : Src) (off n : ℕ), sb.Valid → v.Free →
      i < sb.ninodes → ip.type ≠ 0 →
      Owned sb (Function.update (inode sb v.blocks) i ip) noExtra v.blocks →
      NoHoles sb (Function.update (inode sb v.blocks) i ip) v.blocks → n < 2 ^ 32 →
      NoPartialCopy src off n →
      (writei sb i ip src off n).Returns viewInterp (fun r w => ∀ tot : ℕ, r.1 = tot →
        ∀ x < ip.size.toNat, x < off ∨ off + tot ≤ x →
          byteAt w.blocks r.2 x = byteAt v.blocks ip x) v) := by
  obtain ⟨a, hinv, hm⟩ := mirrored h (not_leaked (fun _ => Calls.disciplined) h)
  refine ⟨fun i b hn hv ho hb => hm.transparent hinv hn hv ho hb,
    fun t b hst hb => hm.view_step hinv hst.2 hb, fun p i b k hp => hm.bread_view hp, ?_⟩
  intro v i ip src off n hsb hfree hi ht ho hmap hn hsrc
  have hself := hmap i hi
  rw [Function.update_self] at hself
  refine (writei_spec hsb hi ht hfree ho (hself ht) src off hn).mono ?_
  rintro r w (⟨rfl, rfl⟩ | ⟨tot, top, hr, hw⟩)
  · intro tot _ x _ _
    rfl
  · intro tot' htot' x hx hxo
    obtain rfl : tot = tot' := by
      rw [hr] at htot'
      exact_mod_cast htot'
    exact hw.old x hx (by rwa [hw.clean hsrc])

def onePage : Vm.UserMem where
  walkaddr va := if va = 0 then 0x80001000 else 0
  mem _ := 1
  sz := 4096

/-- A file whose first block is block 100. -/
def file100 : Dinode := { Dinode.zero with type := 2, size := 1024 }.setAddr 0 100

/-- A process reads block 100; another one then writes 7 to its first byte, which a third one reads. -/
theorem cache_transparent_unlocked : ∃ s t : Kernel 3,
    (machine 3 Superblock.mkfs.geometry (Calls Superblock.mkfs NoPartialCopy)).Reachable s ∧
      (∃ i, s.bcache.Names i rootDev 100 ∧ (s.bcache.buf i).valid = true ∧ s.owner i = none ∧
        (s.bcache.buf i).data = s.disk 100) ∧
    (machine 3 Superblock.mkfs.geometry (Calls Superblock.mkfs NoPartialCopy)).Reachable t ∧
      ∃ i k, t.pc 2 = .filling i 100 k ∧ (t.bcache.buf i).data = t.view 100 ∧
        t.view 100 ⟨0, by decide⟩ = 7 := by
  let i : Fin nbuf := ⟨29, by decide⟩
  have h := System.Reachable.init
    (S := machine 3 Superblock.mkfs.geometry (Calls Superblock.mkfs NoPartialCopy))
    (Kernel.initial_fresh 3 (by decide))
  have h := h.step ⟨rfl, .call 0 _ rfl (.readi file100 .kernel 0 1)⟩
  have h := h.step ⟨rfl, .bget 0 100 _ i _ rfl rfl⟩
  have h := h.step ⟨rfl, .acquiresleep 0 i 100 _ rfl rfl⟩
  have h := h.step ⟨rfl, .breadDisk 0 i 100 _ rfl rfl⟩
  have h := h.step ⟨rfl, .releasesleep 0 100 _ i rfl ⟨rfl, rfl, rfl⟩⟩
  have hread := (cache_transparent h).1 i 100 ⟨rfl, rfl⟩ rfl rfl (by decide)
  have h' := h.step ⟨rfl, .beginOp 1 rfl rfl⟩
  have h' := h'.step ⟨rfl, .call 1 _ rfl
    (.writei 1 file100 (.kernel fun _ => 7) 0 1 (noPartialCopy_kernel _ 0 1))⟩
  have h' := h'.step ⟨rfl, .bget 1 100 _ i _ rfl rfl⟩
  have h' := h'.step ⟨rfl, .acquiresleep 1 i 100 _ rfl rfl⟩
  have h' := h'.step ⟨rfl, .breadValid 1 i 100 _ rfl rfl⟩
  have h' := h'.step ⟨rfl, .store 1 100 _ _ i rfl (by rintro ⟨⟩) ⟨rfl, rfl, rfl⟩ (by decide)⟩
  have h' := h'.step ⟨rfl, .logWrite 1 100 _ i _ _ rfl (by rintro ⟨⟩) ⟨rfl, rfl, rfl⟩ (by decide) rfl⟩
  have h' := h'.step ⟨rfl, .releasesleep 1 100 _ i rfl ⟨rfl, rfl, rfl⟩⟩
  have h' := h'.step ⟨rfl, .call 2 _ rfl (.readi file100 .kernel 0 1)⟩
  have h' := h'.step ⟨rfl, .bget 2 100 _ i _ rfl rfl⟩
  have h' := h'.step ⟨rfl, .acquiresleep 2 i 100 _ rfl rfl⟩
  have hview := (cache_transparent h').2.2.1 2 i 100 _ rfl
  refine ⟨_, _, h, ⟨i, ⟨rfl, rfl⟩, rfl, rfl, hread⟩, h', i, _, rfl, hview, ?_⟩
  rw [← hview]
  rfl

/-- The user asks for two bytes, the second of which is on a page that is not there: one byte is in
the buffer when `writei` gives up, and the buffer is released without `log_write`. -/
theorem cache_not_transparent : ∃ s : Kernel 1,
    (machine 1 Superblock.mkfs.geometry (Calls Superblock.mkfs fun _ _ _ => True)).Reachable s ∧
      ∃ i, s.bcache.Names i rootDev 100 ∧ (s.bcache.buf i).valid = true ∧ s.owner i = none ∧
        100 ∉ s.log.lh ∧ (s.bcache.buf i).data ≠ s.disk 100 := by
  let i : Fin nbuf := ⟨29, by decide⟩
  have h := System.Reachable.init
    (S := machine 1 Superblock.mkfs.geometry (Calls Superblock.mkfs fun _ _ _ => True))
    (Kernel.initial_fresh 1 (by decide))
  have h := h.step ⟨rfl, .beginOp 0 rfl rfl⟩
  have h := h.step ⟨rfl, .call 0 _ rfl (.writei 1 file100 (.user onePage 4095) 0 2 trivial)⟩
  have h := h.step ⟨rfl, .bget 0 100 _ i _ rfl rfl⟩
  have h := h.step ⟨rfl, .acquiresleep 0 i 100 _ rfl rfl⟩
  have h := h.step ⟨rfl, .breadDisk 0 i 100 _ rfl rfl⟩
  have h := h.step ⟨rfl, .store 0 100 _ _ i rfl (by rintro ⟨⟩) ⟨rfl, rfl, rfl⟩ (by decide)⟩
  have h := h.step ⟨rfl, .releasesleep 0 100 _ i rfl ⟨rfl, rfl, rfl⟩⟩
  refine ⟨_, h, i, ⟨rfl, rfl⟩, rfl, rfl, by decide, ?_⟩
  intro he
  have h0 := congrFun he ⟨0, by decide⟩
  exact absurd h0 (by decide)

/-- The same call of `writei`, on a block that another process has recorded before: a third one reads
contents that nobody has recorded. -/
theorem bread_not_recorded : ∃ s : Kernel 3,
    (machine 3 Superblock.mkfs.geometry (Calls Superblock.mkfs fun _ _ _ => True)).Reachable s ∧
      ∃ i k, s.pc 2 = .filling i 100 k ∧ 100 ∈ s.log.lh ∧ (s.bcache.buf i).valid = true ∧
        (s.bcache.buf i).data ≠ s.logged 100 := by
  let i : Fin nbuf := ⟨29, by decide⟩
  have h := System.Reachable.init
    (S := machine 3 Superblock.mkfs.geometry (Calls Superblock.mkfs fun _ _ _ => True))
    (Kernel.initial_fresh 3 (by decide))
  have h := h.step ⟨rfl, .beginOp 0 rfl rfl⟩
  have h := h.step ⟨rfl, .call 0 _ rfl (.writei 1 file100 (.kernel fun _ => 7) 0 1 trivial)⟩
  have h := h.step ⟨rfl, .bget 0 100 _ i _ rfl rfl⟩
  have h := h.step ⟨rfl, .acquiresleep 0 i 100 _ rfl rfl⟩
  have h := h.step ⟨rfl, .breadDisk 0 i 100 _ rfl rfl⟩
  have h := h.step ⟨rfl, .store 0 100 _ _ i rfl (by rintro ⟨⟩) ⟨rfl, rfl, rfl⟩ (by decide)⟩
  have h := h.step ⟨rfl, .logWrite 0 100 _ i _ _ rfl (by rintro ⟨⟩) ⟨rfl, rfl, rfl⟩ (by decide) rfl⟩
  have h := h.step ⟨rfl, .releasesleep 0 100 _ i rfl ⟨rfl, rfl, rfl⟩⟩
  have h := h.step ⟨rfl, .call 1 _ rfl (.writei 1 file100 (.user onePage 4095) 0 2 trivial)⟩
  have h := h.step ⟨rfl, .bget 1 100 _ i _ rfl rfl⟩
  have h := h.step ⟨rfl, .acquiresleep 1 i 100 _ rfl rfl⟩
  have h := h.step ⟨rfl, .breadValid 1 i 100 _ rfl rfl⟩
  have h := h.step ⟨rfl, .store 1 100 _ _ i rfl (by rintro ⟨⟩) ⟨rfl, rfl, rfl⟩ (by decide)⟩
  have h := h.step ⟨rfl, .releasesleep 1 100 _ i rfl ⟨rfl, rfl, rfl⟩⟩
  have h := h.step ⟨rfl, .call 2 _ rfl (.readi file100 .kernel 0 1)⟩
  have h := h.step ⟨rfl, .bget 2 100 _ i _ rfl rfl⟩
  have h := h.step ⟨rfl, .acquiresleep 2 i 100 _ rfl rfl⟩
  refine ⟨_, h, i, _, rfl, by decide, rfl, ?_⟩
  intro he
  have h0 := congrFun he ⟨0, by decide⟩
  exact absurd h0 (by decide)

end Xv6.Fs
