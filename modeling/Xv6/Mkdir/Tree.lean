import Xv6.Param
import Xv6.Str

/-! Directory trees, as `open`, `mkdir` and `chdir` see them. -/
namespace Xv6.Mkdir

/-- The inodes of a file system whose directories form a tree. `entry` has the names other than `.` and
`..`, which are the directory itself and its parent. A device without a driver cannot be opened. -/
structure Tree where
  used : Finset ℕ
  isDir : ℕ → Bool
  openable : ℕ → Bool
  entry : ℕ → Str → Option ℕ
  parent : ℕ → ℕ
  depth : ℕ → ℕ
  root_isDir : isDir rootIno = true
  parent_isDir : ∀ d, isDir d = true → isDir (parent d) = true
  mem_used : ∀ d, isDir d = true → d ∈ used
  dir_openable : ∀ d, isDir d = true → openable d = true
  entry_isDir : ∀ d x c, entry d x = some c → isDir d = true ∧ c ∈ used
  depth_eq_zero : ∀ d, isDir d = true → (depth d = 0 ↔ d = rootIno)
  depth_parent : ∀ d, isDir d = true → depth (parent d) = depth d - 1
  entry_parent : ∀ d x c, entry d x = some c → isDir c = true → parent c = d ∧ depth c = depth d + 1

namespace Tree

variable (t : Tree)

theorem exists_unused : ∃ n, n ≠ 0 ∧ n ∉ t.used := by
  obtain ⟨n, hn⟩ := Infinite.exists_notMem_finset (insert 0 t.used)
  rw [Finset.mem_insert, not_or] at hn
  exact ⟨n, hn⟩

/-- `ialloc` takes the first inode that is free. -/
def ialloc : ℕ := Nat.find t.exists_unused

theorem ialloc_not_mem : t.ialloc ∉ t.used := (Nat.find_spec t.exists_unused).2

theorem isDir_ialloc : t.isDir t.ialloc = false := by
  by_contra h
  exact t.ialloc_not_mem (t.mem_used _ (by simpa using h))

theorem ne_ialloc {a : ℕ} (h : a ∈ t.used) : a ≠ t.ialloc := fun heq => t.ialloc_not_mem (heq ▸ h)

/-- The tree with a new directory `x` in `d`. -/
def addDir (d : ℕ) (hd : t.isDir d = true) (x : Str) : Tree where
  used := insert t.ialloc t.used
  isDir := Function.update t.isDir t.ialloc true
  openable := Function.update t.openable t.ialloc true
  entry a y := if a = d ∧ y = x then some t.ialloc else t.entry a y
  parent := Function.update t.parent t.ialloc d
  depth := Function.update t.depth t.ialloc (t.depth d + 1)
  root_isDir := by
    rw [Function.update_apply]
    split_ifs
    · rfl
    · exact t.root_isDir
  parent_isDir := by
    intro a ha
    rw [Function.update_apply] at ha
    split_ifs at ha with h
    · rw [h, Function.update_self, Function.update_of_ne (t.ne_ialloc (t.mem_used d hd))]
      exact hd
    · have hp := t.parent_isDir a ha
      rw [Function.update_of_ne h, Function.update_of_ne (t.ne_ialloc (t.mem_used _ hp))]
      exact hp
  mem_used := by
    intro a ha
    rw [Function.update_apply] at ha
    split_ifs at ha with h
    · rw [h]
      exact Finset.mem_insert_self _ _
    · exact Finset.mem_insert_of_mem (t.mem_used a ha)
  dir_openable := by
    intro a ha
    rw [Function.update_apply] at ha ⊢
    split_ifs at ha ⊢
    · rfl
    · exact t.dir_openable a ha
  entry_isDir := by
    intro a y c h
    split_ifs at h with ha
    · rw [ha.1, Function.update_of_ne (t.ne_ialloc (t.mem_used d hd)), ← Option.some.inj h]
      exact ⟨hd, Finset.mem_insert_self _ _⟩
    · obtain ⟨hdir, hc⟩ := t.entry_isDir a y c h
      rw [Function.update_of_ne (t.ne_ialloc (t.mem_used a hdir))]
      exact ⟨hdir, Finset.mem_insert_of_mem hc⟩
  depth_eq_zero := by
    intro a ha
    rw [Function.update_apply] at ha ⊢
    split_ifs at ha ⊢ with h
    · have hroot := t.ne_ialloc (t.mem_used _ t.root_isDir)
      exact iff_of_false not_false fun heq => hroot (heq.symm.trans h)
    · exact t.depth_eq_zero a ha
  depth_parent := by
    intro a ha
    rw [Function.update_apply] at ha
    split_ifs at ha with h
    · rw [h, Function.update_self, Function.update_self,
        Function.update_of_ne (t.ne_ialloc (t.mem_used d hd)), Nat.add_sub_cancel]
    · have hp := t.parent_isDir a ha
      rw [Function.update_of_ne h, Function.update_of_ne h,
        Function.update_of_ne (t.ne_ialloc (t.mem_used _ hp))]
      exact t.depth_parent a ha
  entry_parent := by
    intro a y c h hc
    split_ifs at h with ha
    · rw [← Option.some.inj h, Function.update_self, Function.update_self, ha.1,
        Function.update_of_ne (t.ne_ialloc (t.mem_used d hd))]
      exact ⟨rfl, rfl⟩
    · obtain ⟨hdir, hmem⟩ := t.entry_isDir a y c h
      rw [Function.update_of_ne (t.ne_ialloc hmem)] at hc
      rw [Function.update_of_ne (t.ne_ialloc hmem), Function.update_of_ne (t.ne_ialloc hmem),
        Function.update_of_ne (t.ne_ialloc (t.mem_used a hdir))]
      exact t.entry_parent a y c h hc

end Tree

end Xv6.Mkdir
