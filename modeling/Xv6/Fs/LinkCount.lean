import Mathlib.Algebra.BigOperators.Group.Finset.Basic
import Mathlib.Data.List.TakeWhile
import Xv6.Fs.Dir
import Xv6.Lib.Numeral
import Xv6.Lib.System

/-! The link count of a regular file over any sequence of `sys_link` and `sys_unlink` of
`kernel/sysfile.c`, with `iput` of `kernel/fs.c`. `nlink` is a `short`, and the number of entries is
bounded only by the sizes of the directories. -/
namespace Xv6.Fs.LinkCount

open Lib

def maxEntries : ℕ := maxFile * bsize / Dirent.bytes

def dirlookup (dp : List Dirent) (name : Str) : Option ℕ :=
  dp.findIdx? fun de => decide (de.Matches name)

/-- `writei` of one entry, at one that is there or at the end. -/
def writeEntry (dp : List Dirent) (off : ℕ) (de : Dirent) : Option (List Dirent) :=
  if maxEntries ≤ off then none
  else some (if off < dp.length then dp.set off de else dp ++ [de])

def dirlink (dp : List Dirent) (name : Str) (inum : ℕ) : Option (List Dirent) :=
  if (dirlookup dp name).isSome then none
  else writeEntry dp (dp.findIdx fun de => decide (de.inum = 0)) ⟨inum, strncpy name dirsiz⟩

/-- The directories, and one regular file: `nlink` in its table entry and on disk, whether the entry is
valid, the references that are held between calls, and whether `iput` has freed the inode. -/
structure State (D : Type) where
  dirs : D → List Dirent
  nlink : BitVec 16
  valid : Bool
  disk : BitVec 16
  ref : ℕ
  freed : Bool

section

variable {D : Type}

def ilock (s : State D) : State D := if s.valid then s else { s with nlink := s.disk, valid := true }

def iupdate (s : State D) : State D := { s with disk := s.nlink }

/-- `iput` of a reference that is not counted in `ref`. -/
def iput (s : State D) : State D :=
  if s.ref = 0 ∧ s.valid = true ∧ s.nlink = 0 then { s with freed := true, valid := false } else s

variable [DecidableEq D]

/-- `sys_link` of the file `ino` to an entry `name` of `d`, once both paths have been resolved. -/
def sysLink (ino : ℕ) (s : State D) (d : D) (name : Str) : Option (State D) := do
  let ip := ilock s
  let ip := iupdate { ip with nlink := ip.nlink + 1 }
  let dp ← dirlink (ip.dirs d) name ino
  some (iput { ip with dirs := Function.update ip.dirs d dp })

def unlinkPanics (s : State D) : Prop := (ilock s).nlink.toInt < 1

/-- The rest of `sys_unlink` of the entry at `off` in `d`. -/
def sysUnlink (s : State D) (d : D) (off : ℕ) : State D :=
  let ip := ilock s
  let ip := { ip with dirs := Function.update ip.dirs d ((ip.dirs d).set off ⟨0, List.replicate dirsiz 0⟩) }
  iput (iupdate { ip with nlink := ip.nlink - 1 })

/-- The first tests of `sys_unlink`: `name` is not a dot name, and in `d` it is the entry at `off`, which
names the file. -/
def Names (ino : ℕ) (s : State D) (d : D) (name : Str) (off : ℕ) : Prop :=
  namecmp name (lit ".") ≠ 0 ∧ namecmp name (lit "..") ≠ 0 ∧
    dirlookup (s.dirs d) name = some off ∧ ∃ de, (s.dirs d)[off]? = some de ∧ de.inum = ino

def naming (ino : ℕ) (dp : List Dirent) : ℕ := dp.countP fun de => decide (de.inum = ino)

variable [Fintype D]

def entries (ino : ℕ) (s : State D) : ℕ := ∑ d, naming ino (s.dirs d)

/-- Calls on the file, and what other calls can do meanwhile. -/
inductive Step (ino : ℕ) : State D → State D → Prop
  | link {s t} (d : D) (name : Str) (hf : s.freed = false) (ho : 0 < entries ino s)
      (h : sysLink ino s d name = some t) : Step ino s t
  | unlink {s} (d : D) (name : Str) (off : ℕ) (hf : s.freed = false) (h : Names ino s d name off)
      (hp : ¬unlinkPanics s) : Step ino s (sysUnlink s d off)
  | fileopen {s} (hf : s.freed = false) (ho : 0 < entries ino s) :
      Step ino s { ilock s with ref := s.ref + 1 }
  | fileclose {s} (hf : s.freed = false) (hr : 0 < s.ref) : Step ino s (iput { s with ref := s.ref - 1 })
  -- the table entry is used for another inode
  | recycle {s} (nlink : BitVec 16) (hr : s.ref = 0) :
      Step ino s { s with nlink := nlink, valid := false }
  -- calls on other files
  | other {s} (dirs : D → List Dirent) (h : ∀ d, naming ino (dirs d) = naming ino (s.dirs d)) :
      Step ino s { s with dirs := dirs }

/-- What the count should be: the number of entries, on disk and in a valid table entry. A call of
`sys_unlink` does not panic, and the inode is not freed while an entry names it. -/
structure Counts (ino : ℕ) (s : State D) : Prop where
  disk : s.disk.toInt = entries ino s
  nlink : s.valid = true → s.nlink.toInt = entries ino s
  unlink : ∀ d name off, Names ino s d name off → ¬unlinkPanics s
  freed : s.freed = true → entries ino s = 0

/-- The file has an entry and its count is right. -/
structure Start (ino : ℕ) (s : State D) : Prop where
  live : s.freed = false
  pos : 0 < entries ino s
  le : entries ino s ≤ 32767
  disk : s.disk = BitVec.ofNat 16 (entries ino s)
  nlink : s.valid = true → s.nlink = s.disk

/-- Runs in which every state has a number of entries that `ok` allows. -/
def system (D : Type) [DecidableEq D] [Fintype D] (ino : ℕ) (ok : ℕ → Prop) : System (State D) where
  init := Start ino
  step s t := Step ino s t ∧ ok (entries ino t)

end

section

variable {D : Type} {ino : ℕ}

theorem naming_set {dp : List Dirent} {off : ℕ} {old new : Dirent} (h : dp[off]? = some old) :
    naming ino (dp.set off new) + (if old.inum = ino then 1 else 0) =
      naming ino dp + (if new.inum = ino then 1 else 0) := by
  obtain ⟨hlt, rfl⟩ := List.getElem?_eq_some_iff.mp h
  have hpos : dp[off].inum = ino → 0 < naming ino dp := by
    intro hold
    exact List.countP_pos_iff.mpr ⟨dp[off], List.getElem_mem hlt, by simpa using hold⟩
  unfold naming at *
  rw [List.countP_set hlt]
  simp only [decide_eq_true_eq]
  split_ifs at * <;> simp_all

theorem naming_dirlink {dp dp' : List Dirent} {name : Str} (hino : ino ≠ 0)
    (h : dirlink dp name ino = some dp') : naming ino dp' = naming ino dp + 1 := by
  unfold dirlink writeEntry at h
  split_ifs at h with h1 h2 h3
  · have hfree : dp[dp.findIdx fun de => decide (de.inum = 0)].inum = 0 := by
      simpa using List.findIdx_getElem (w := h3)
    have hset := @naming_set ino dp _ _ ⟨ino, strncpy name dirsiz⟩ (List.getElem?_eq_getElem h3)
    rw [if_neg (by rw [hfree]; exact hino.symm), if_pos rfl] at hset
    rw [← Option.some.inj h]
    exact hset
  · rw [← Option.some.inj h]
    simp [naming, List.countP_append]

@[simp] theorem ilock_dirs (s : State D) : (ilock s).dirs = s.dirs := by
  unfold LinkCount.ilock
  split_ifs <;> rfl

@[simp] theorem ilock_freed (s : State D) : (ilock s).freed = s.freed := by
  unfold LinkCount.ilock
  split_ifs <;> rfl

theorem Names.pos {s : State D} {d : D} {name : Str} {off : ℕ} (h : Names ino s d name off) :
    0 < naming ino (s.dirs d) := by
  obtain ⟨-, -, -, de, hde, hino⟩ := h
  exact List.countP_pos_iff.mpr ⟨de, List.mem_of_getElem? hde, by simpa using hino⟩

variable [Fintype D]

structure Inv (ino : ℕ) (s : State D) : Prop where
  le : entries ino s ≤ 32767
  disk : s.disk = BitVec.ofNat 16 (entries ino s)
  nlink : s.valid = true → s.nlink = s.disk
  freed : s.freed = true → entries ino s = 0

theorem toInt_ofNat {n : ℕ} (h : n ≤ 32767) : (BitVec.ofNat 16 n).toInt = n := by
  rw [BitVec.toInt_eq_toNat_cond, BitVec.toNat_ofNat, if_pos (by omega)]
  omega

theorem ofNat_eq_zero {n : ℕ} (h : n ≤ 32767) (h0 : BitVec.ofNat 16 n = 0) : n = 0 := by
  have := toInt_ofNat h
  rw [h0] at this
  change 0 = (n : ℤ) at this
  omega

theorem Inv.ilock {s : State D} (h : Inv ino s) :
    Inv ino (ilock s) ∧ (ilock s).valid = true ∧ (ilock s).nlink = s.disk := by
  unfold LinkCount.ilock
  split_ifs with hv
  · exact ⟨h, hv, h.nlink hv⟩
  · exact ⟨⟨h.le, h.disk, fun _ => rfl, h.freed⟩, rfl, rfl⟩

theorem Inv.iput {s : State D} (h : Inv ino s) : Inv ino (iput s) := by
  unfold LinkCount.iput
  split_ifs with hc
  · refine ⟨h.le, h.disk, (fun hv => by cases hv), fun _ => ?_⟩
    apply ofNat_eq_zero h.le
    rw [← h.disk, ← h.nlink hc.2.1]
    exact hc.2.2
  · exact h

theorem entries_iput (s : State D) : entries ino (iput s) = entries ino s := by
  unfold LinkCount.iput
  split_ifs <;> rfl

theorem naming_le_entries (ino : ℕ) (s : State D) (d : D) : naming ino (s.dirs d) ≤ entries ino s :=
  Finset.single_le_sum (f := fun e => naming ino (s.dirs e)) (fun _ _ => Nat.zero_le _)
    (Finset.mem_univ d)

theorem Inv.counts {s : State D} (h : Inv ino s) : Counts ino s := by
  have hdisk : s.disk.toInt = entries ino s := by rw [h.disk, toInt_ofNat h.le]
  refine ⟨hdisk, fun hv => by rw [h.nlink hv, hdisk], fun d name off hn hp => ?_, h.freed⟩
  unfold unlinkPanics at hp
  rw [h.ilock.2.2, hdisk] at hp
  have hpos := hn.pos
  have hle := naming_le_entries ino s d
  omega

variable [DecidableEq D]

theorem entries_update (ino : ℕ) (s : State D) (d : D) (dp : List Dirent) :
    ∑ e, naming ino (Function.update s.dirs d dp e) + naming ino (s.dirs d) =
      entries ino s + naming ino dp := by
  have hcomp : (fun e => naming ino (Function.update s.dirs d dp e)) =
      Function.update (fun e => naming ino (s.dirs e)) d (naming ino dp) := by
    funext e
    exact Function.apply_update (fun _ => naming ino) s.dirs d dp e
  rw [hcomp, Finset.sum_update_of_mem (Finset.mem_univ d)]
  have hsum := Finset.add_sum_erase Finset.univ (fun e => naming ino (s.dirs e)) (Finset.mem_univ d)
  unfold entries
  rw [Finset.sdiff_singleton_eq_erase]
  omega

theorem Inv.link {s t : State D} {d : D} {name : Str} (h : Inv ino s) (hino : ino ≠ 0)
    (hf : s.freed = false) (hlink : sysLink ino s d name = some t) (ht : entries ino t ≤ 32767) :
    Inv ino t := by
  obtain ⟨hlocked, hvalid, hnlink⟩ := h.ilock
  simp only [sysLink, iupdate, Option.bind_eq_bind, Option.bind_eq_some_iff, Option.some.injEq,
    ilock_dirs] at hlink
  obtain ⟨dp, hdp, rfl⟩ := hlink
  have hadd := naming_dirlink hino hdp
  have hsum := entries_update ino s d dp
  have hentries : ∑ e, naming ino (Function.update s.dirs d dp e) = entries ino s + 1 := by omega
  rw [entries_iput] at ht
  apply Inv.iput
  refine ⟨ht, ?_, fun _ => rfl, fun hfreed => ?_⟩
  · change (LinkCount.ilock s).nlink + 1 = BitVec.ofNat 16 (∑ e, naming ino (Function.update s.dirs d dp e))
    rw [hentries, hnlink, h.disk, BitVec.ofNat_add]
    rfl
  · change (LinkCount.ilock s).freed = true at hfreed
    rw [ilock_freed, hf] at hfreed
    cases hfreed

theorem Inv.unlink {s : State D} {d : D} {name : Str} {off : ℕ} (h : Inv ino s) (hino : ino ≠ 0)
    (hf : s.freed = false) (hn : Names ino s d name off) : Inv ino (sysUnlink s d off) := by
  obtain ⟨hlocked, hvalid, hnlink⟩ := h.ilock
  have hpos := hn.pos
  have hle := naming_le_entries ino s d
  obtain ⟨-, -, -, de, hde, hdino⟩ := hn
  have hset := @naming_set ino (s.dirs d) off de ⟨0, List.replicate dirsiz 0⟩ hde
  rw [if_pos hdino, if_neg hino.symm] at hset
  have hsum := entries_update ino s d ((s.dirs d).set off ⟨0, List.replicate dirsiz 0⟩)
  obtain ⟨n, hn⟩ : ∃ n, entries ino s = n + 1 := ⟨entries ino s - 1, by omega⟩
  have hentries : ∑ e, naming ino (Function.update s.dirs d
      ((s.dirs d).set off ⟨0, List.replicate dirsiz 0⟩) e) = n := by omega
  have hlim := h.le
  apply Inv.iput
  refine ⟨?_, ?_, fun _ => rfl, fun hfreed => ?_⟩
  · simp only [entries, iupdate, ilock_dirs]
    omega
  · simp only [entries, iupdate, ilock_dirs]
    rw [hentries, hnlink, h.disk, hn, BitVec.ofNat_add]
    exact BitVec.add_sub_cancel _ _
  · change (LinkCount.ilock s).freed = true at hfreed
    rw [ilock_freed, hf] at hfreed
    cases hfreed

/-- A call keeps the count right while at most 32767 entries name the file. -/
theorem Inv.step {s t : State D} (h : Inv ino s) (hino : ino ≠ 0) (hs : Step ino s t)
    (ht : entries ino t ≤ 32767) : Inv ino t := by
  cases hs with
  | link d name hf ho hlink => exact h.link hino hf hlink ht
  | unlink d name off hf hn hp => exact h.unlink hino hf hn
  | fileopen hf ho =>
    obtain ⟨hle, hdisk, hnlink, hfreed⟩ := h.ilock.1
    exact ⟨hle, hdisk, hnlink, hfreed⟩
  | fileclose hf hr =>
    apply Inv.iput
    exact ⟨h.le, h.disk, h.nlink, h.freed⟩
  | recycle nlink hr => exact ⟨h.le, h.disk, (fun hv => by cases hv), h.freed⟩
  | other dirs hsame =>
    have hentries : ∑ d, naming ino (dirs d) = entries ino s := Finset.sum_congr rfl fun d _ => hsame d
    refine ⟨ht, ?_, h.nlink, fun hfreed => ?_⟩
    · change s.disk = BitVec.ofNat 16 (∑ d, naming ino (dirs d))
      rw [hentries, h.disk]
    · change ∑ d, naming ino (dirs d) = 0
      rw [hentries, h.freed hfreed]

/-- On disk, `dirlookup` of `Fs.Dir` finds the entry that the search of the list finds. -/
theorem dirlookup_returns {sb : Superblock} {v : View} {dp : Dinode} {name : Str} {n off : ℕ}
    (hfree : v.Free) (ht : dp.type = tDir) (hsize : dp.size.toNat = Dirent.bytes * n)
    (hm : MappedOn v.blocks dp 0 dp.size.toNat)
    (h : dirlookup ((List.range n).map (Fs.entry v.blocks dp)) name = some off) :
    (Fs.dirlookup sb dp name).Returns viewInterp
      (fun r w => r = (some ((Fs.entry v.blocks dp off).inum, Dirent.bytes * off), dp) ∧ w = v) v := by
  rw [dirlookup, List.findIdx?_eq_some_iff_getElem] at h
  obtain ⟨hlt, hmatch, hbefore⟩ := h
  rw [List.length_map, List.length_range] at hlt
  have hend : Dirent.bytes * (off + 1) ≤ dp.size.toNat := by
    rw [hsize]
    exact Nat.mul_le_mul_left _ hlt
  refine dirlookup_found hfree ht hend (fun x h₁ h₂ => hm x h₁ (by omega)) (fun j hj => ?_) ?_
  · simpa using hbefore j hj
  · simpa using hmatch

/-- While the file has at most 32767 entries, its link count is their number. -/
theorem counts_of_bounded {s : State D} (hino : ino ≠ 0)
    (h : (system D ino (· ≤ 32767)).Reachable s) : Counts ino s := by
  apply Inv.counts
  refine System.Reachable.invariant (I := Inv ino) ?_ ?_ h
  · intro s hs
    exact ⟨hs.le, hs.disk, hs.nlink, fun hf => by rw [hs.live] at hf; cases hf⟩
  · intro s t _ hinv hst
    exact hinv.step hino hst.1 hst.2

end

section

def name (j : ℕ) : Str := numeral (fun d => (48 + d).toUInt8) 10 j

def entry (j : ℕ) : Dirent := ⟨5, strncpy (name j) dirsiz⟩

theorem clip_name {j : ℕ} (hj : j < 10 ^ 14) : clip (name j) dirsiz = name j := by
  have hlen : (name j).length ≤ dirsiz :=
    (length_numeral_le_iff _ j (by decide) (by decide)).mpr hj
  unfold clip
  rw [List.take_of_length_le hlen, List.takeWhile_eq_self_iff]
  intro c hc
  obtain ⟨d, hd, rfl⟩ := mem_numeral (by decide) hc
  clear hc
  revert d
  decide

theorem matches_entry {i j : ℕ} (hi : i < 10 ^ 14) (hj : j < 10 ^ 14) :
    (entry j).Matches (name i) ↔ i = j := by
  unfold Dirent.Matches entry namecmp
  rw [strncmp_eq_zero_iff, clip_strncpy, clip_name hi, clip_name hj]
  constructor
  · rintro ⟨-, h⟩
    exact (numeral_inj (by decide) (by decide)).mp h
  · rintro rfl
    refine ⟨?_, rfl⟩
    change 5 ≠ 0
    decide

theorem dirlink_append {dp : List Dirent} {nm : Str} {ino : ℕ}
    (h : ∀ de ∈ dp, de.inum ≠ 0 ∧ ¬de.Matches nm) (hlen : dp.length < maxEntries) :
    dirlink dp nm ino = some (dp ++ [⟨ino, strncpy nm dirsiz⟩]) := by
  have hnone : dirlookup dp nm = none := by
    rw [dirlookup, List.findIdx?_eq_none_iff]
    intro de hde
    simpa using (h de hde).2
  have hfull : (dp.findIdx fun de => decide (de.inum = 0)) = dp.length := by
    rw [List.findIdx_eq_length]
    intro de hde
    simpa using (h de hde).1
  unfold dirlink writeEntry
  rw [hnone, hfull, if_neg (by simp), if_neg (by omega), if_neg (by omega)]

/-- The file 5 after `k` calls of `sys_link`: the first 17000 names in one directory, the others in a
second one. -/
structure Grown (k : ℕ) (s : State Bool) : Prop where
  live : s.freed = false
  valid : s.valid = true
  nlink : s.nlink = BitVec.ofNat 16 (k + 1)
  disk : s.disk = BitVec.ofNat 16 (k + 1)
  names : ∀ d, ∀ de ∈ s.dirs d, ∃ j ≤ k, de = entry j
  first : (s.dirs false).head? = some (entry 0)
  length : ∀ d, (s.dirs d).length = if d then k + 1 - 17000 else min (k + 1) 17000

def created : State Bool :=
  ⟨fun d => if d then [] else [entry 0], 1, true, 1, 0, false⟩

theorem grown_created : Grown 0 created := by
  constructor
  · rfl
  · rfl
  · rfl
  · rfl
  · intro d de hde
    cases d
    · exact ⟨0, le_rfl, List.mem_singleton.mp hde⟩
    · cases hde
  · rfl
  · intro d
    cases d <;> rfl

theorem Grown.entries {k : ℕ} {s : State Bool} (h : Grown k s) : entries 5 s = k + 1 := by
  have hall : ∀ d, naming 5 (s.dirs d) = (s.dirs d).length := by
    intro d
    apply List.countP_eq_length.mpr
    intro de hde
    obtain ⟨j, -, rfl⟩ := h.names d de hde
    rfl
  rw [LinkCount.entries, Fintype.sum_bool, hall, hall, h.length, h.length]
  simp
  omega

theorem start_created : Start 5 created := by
  refine ⟨rfl, ?_, ?_, ?_, fun _ => rfl⟩
  · rw [grown_created.entries]
    decide
  · rw [grown_created.entries]
    decide
  · rw [grown_created.entries]
    rfl

theorem Grown.link {k : ℕ} {s : State Bool} (h : Grown k s) (hk : k + 1 ≤ 32767) :
    ∃ t, Step 5 s t ∧ Grown (k + 1) t := by
  have hlen := h.length (decide (17000 ≤ k + 1))
  have hroom : (s.dirs (decide (17000 ≤ k + 1))).length < maxEntries := by
    rw [hlen, show maxEntries = 17152 from rfl]
    split_ifs <;> omega
  have hnew : ∀ de ∈ s.dirs (decide (17000 ≤ k + 1)), de.inum ≠ 0 ∧ ¬de.Matches (name (k + 1)) := by
    intro de hde
    obtain ⟨j, hj, rfl⟩ := h.names _ de hde
    refine ⟨by simp [entry], ?_⟩
    rw [matches_entry (by omega) (by omega)]
    omega
  have hdir := @dirlink_append _ (name (k + 1)) 5 hnew hroom
  have hnz : BitVec.ofNat 16 (k + 2) ≠ 0 := by
    intro h0
    have := congrArg BitVec.toNat h0
    simp at this
    omega
  have hsum : BitVec.ofNat 16 (k + 1) + 1 = BitVec.ofNat 16 (k + 2) :=
    (BitVec.ofNat_add (k + 1) 1).symm
  refine ⟨⟨Function.update s.dirs (decide (17000 ≤ k + 1))
    (s.dirs (decide (17000 ≤ k + 1)) ++ [entry (k + 1)]), BitVec.ofNat 16 (k + 2), true,
    BitVec.ofNat 16 (k + 2), s.ref, s.freed⟩, ?_, ?_⟩
  · apply Step.link (decide (17000 ≤ k + 1)) (name (k + 1)) h.live (by rw [h.entries]; omega)
    simp only [sysLink, ilock, iupdate, h.valid, if_true, hdir, Option.bind_eq_bind, Option.bind_some,
      h.nlink, hsum]
    rw [iput, if_neg (by rintro ⟨-, -, h0⟩; exact hnz h0)]
    rfl
  · constructor
    · exact h.live
    · rfl
    · rfl
    · rfl
    · intro d de hde
      change de ∈ Function.update s.dirs _ _ d at hde
      by_cases hd : d = decide (17000 ≤ k + 1)
      · subst hd
        rw [Function.update_self] at hde
        rcases List.mem_append.mp hde with hde | hde
        · obtain ⟨j, hj, rfl⟩ := h.names _ de hde
          exact ⟨j, by omega, rfl⟩
        · exact ⟨k + 1, le_rfl, List.mem_singleton.mp hde⟩
      · rw [Function.update_of_ne hd] at hde
        obtain ⟨j, hj, rfl⟩ := h.names _ de hde
        exact ⟨j, by omega, rfl⟩
    · have hfirst := h.first
      change (Function.update s.dirs _ _ false).head? = _
      by_cases hd : false = decide (17000 ≤ k + 1)
      · rw [← hd, Function.update_self]
        rw [List.head?_append, hfirst]
        rfl
      · rw [Function.update_of_ne hd]
        exact hfirst
    · intro d
      have hd' := h.length d
      change (Function.update s.dirs _ _ d).length = _
      by_cases hd : d = decide (17000 ≤ k + 1)
      · subst hd
        rw [Function.update_self, List.length_append, hd', List.length_singleton]
        split_ifs <;> simp_all <;> omega
      · rw [Function.update_of_ne hd, hd']
        cases d <;> simp_all <;> omega

theorem exists_grown {k : ℕ} (hk : k ≤ 32767) :
    ∃ s, (system Bool 5 fun _ => True).Reachable s ∧ Grown k s := by
  induction k with
  | zero => exact ⟨created, .init start_created, grown_created⟩
  | succ k ih =>
    obtain ⟨s, hs, hgrown⟩ := ih (by omega)
    obtain ⟨t, hst, ht⟩ := hgrown.link hk
    exact ⟨t, hs.step ⟨hst, trivial⟩, ht⟩

def linked : State Bool := ⟨Function.update created.dirs true [entry 1], 2, true, 2, 0, false⟩

/-- A second name is made for the file, and the first one is removed. -/
theorem counts_of_bounded_relinked : sysLink 5 created true (name 1) = some linked ∧
    entries 5 linked = 2 ∧ Names 5 linked false (name 0) 0 ∧
    (system Bool 5 (· ≤ 32767)).Reachable (sysUnlink linked false 0) ∧
    Counts 5 (sysUnlink linked false 0) ∧ entries 5 (sysUnlink linked false 0) = 1 ∧
    (sysUnlink linked false 0).nlink = 1 ∧ (sysUnlink linked false 0).freed = false := by
  have h₀ : (system Bool 5 (· ≤ 32767)).Reachable created := .init start_created
  have hlink : sysLink 5 created true (name 1) = some linked := rfl
  have h₁ := h₀.step ⟨.link true (name 1) rfl (by decide) hlink, by decide⟩
  have hn : Names 5 linked false (name 0) 0 := ⟨by decide, by decide, rfl, entry 0, rfl, rfl⟩
  have h₂ := h₁.step ⟨.unlink false (name 0) 0 rfl hn (by unfold unlinkPanics; decide), by decide⟩
  exact ⟨hlink, by decide, hn, h₂, counts_of_bounded (by decide) h₂, by decide, rfl, rfl⟩

/-- With 32768 entries the count is negative, and `sys_unlink` of any of them panics. -/
theorem link_count_overflows :
    ∃ s, (system Bool 5 fun _ => True).Reachable s ∧ entries 5 s = 32768 ∧
      s.disk.toInt = -32768 ∧ Names 5 s false (name 0) 0 ∧ unlinkPanics s := by
  obtain ⟨s, hs, hgrown⟩ := exists_grown (le_refl 32767)
  have hfirst := hgrown.first
  refine ⟨s, hs, hgrown.entries, by rw [hgrown.disk]; rfl, ⟨?_, ?_, ?_, entry 0, ?_, rfl⟩, ?_⟩
  · decide
  · decide
  · obtain ⟨de, dp, hdp⟩ : ∃ de dp, s.dirs false = de :: dp := by
      cases hd : s.dirs false with
      | nil => rw [hd] at hfirst; cases hfirst
      | cons de dp => exact ⟨de, dp, rfl⟩
    rw [hdp] at hfirst ⊢
    cases hfirst
    rw [dirlookup, List.findIdx?_cons, if_pos]
    exact decide_eq_true ((matches_entry (by decide) (by decide)).mpr rfl)
  · rw [← List.head?_eq_getElem?, hfirst]
  · unfold unlinkPanics ilock
    rw [if_pos hgrown.valid, hgrown.nlink]
    decide

end

end Xv6.Fs.LinkCount
