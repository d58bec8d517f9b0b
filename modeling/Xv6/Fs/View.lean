import Xv6.Fs.File

/-! File system code run by itself: the contents of blocks are what the buffer cache shows, and a
block is locked from `bread` to `brelse`. -/
namespace Xv6.Fs

open Bio Lib

@[ext] structure View where
  blocks : Disk
  held : ℕ → Bool

namespace View

def set (v : View) (b : ℕ) (c : Block) : View := { v with blocks := Function.update v.blocks b c }

def lock (v : View) (b : ℕ) : View := { v with held := Function.update v.held b true }

def unlock (v : View) (b : ℕ) : View := { v with held := Function.update v.held b false }

def Free (v : View) : Prop := ∀ b, v.held b = false

variable {v : View} {a b : ℕ} {c : Block}

@[simp] theorem blocks_set : (v.set b c).blocks = Function.update v.blocks b c := rfl

@[simp] theorem held_set : (v.set b c).held = v.held := rfl

@[simp] theorem blocks_lock : (v.lock b).blocks = v.blocks := rfl

@[simp] theorem held_lock : (v.lock b).held = Function.update v.held b true := rfl

@[simp] theorem blocks_unlock : (v.unlock b).blocks = v.blocks := rfl

@[simp] theorem held_unlock : (v.unlock b).held = Function.update v.held b false := rfl

theorem set_lock : (v.lock a).set b c = (v.set b c).lock a := rfl

theorem unlock_lock (h : v.held b = false) : (v.lock b).unlock b = v := by
  ext : 1
  · rfl
  · simp [← h]

end View

/-- A `bread` of a block that is locked already would sleep for ever. The log has room here. -/
def viewInterp : Interp Bio.interface View
  | .bread b, v => if v.held b then .error "deadlock" else .ok (v.blocks b, v.lock b)
  | .store b c, v => if v.held b then .ok ((), v.set b c) else .error "store"
  | .logWrite b, v => if v.held b then .ok ((), v) else .error "log_write"
  | .brelse b, v => if v.held b then .ok ((), v.unlock b) else .error "brelse"
  | .bwrite _, _ => .error "bwrite"
  | .bunpin _, _ => .error "bunpin"
  | .getLh, _ => .error "log"
  | .setLh _, _ => .error "log"
  | .panic msg, _ => .error msg

/-- Code that only reads. -/
def readInterp : Interp Bio.interface View
  | .bread b, v => if v.held b then .error "deadlock" else .ok (v.blocks b, v.lock b)
  | .brelse b, v => if v.held b then .ok ((), v.unlock b) else .error "brelse"
  | _, _ => .error "write"

theorem viewInterp_of_read {o : Op} {v w : View} {r : Bio.interface.Result o}
    (h : readInterp o v = .ok (r, w)) : viewInterp o v = .ok (r, w) := by
  cases o with
  | bread b => exact h
  | brelse b => exact h
  | _ => cases h

section Rules

variable {α : Type} {Q : α → View → Prop} {v : View} {b : ℕ} {c : Block}

theorem returns_bread {k : Block → Code α} (hb : v.held b = false)
    (h : (k (v.blocks b)).Returns viewInterp Q (v.lock b)) :
    (bread b >>= k).Returns viewInterp Q v :=
  .op (by simp [viewInterp, hb]) h

theorem reads_bread {k : Block → Code α} (hb : v.held b = false)
    (h : (k (v.blocks b)).Returns readInterp Q (v.lock b)) :
    (bread b >>= k).Returns readInterp Q v :=
  .op (by simp [readInterp, hb]) h

theorem returns_store {k : Unit → Code α} (hb : v.held b = true)
    (h : (k ()).Returns viewInterp Q (v.set b c)) : (store b c >>= k).Returns viewInterp Q v :=
  .op (by simp [viewInterp, hb]) h

theorem returns_logWrite {k : Unit → Code α} (hb : v.held b = true)
    (h : (k ()).Returns viewInterp Q v) : (logWrite b >>= k).Returns viewInterp Q v :=
  .op (by simp [viewInterp, hb]) h

theorem returns_brelse {k : Unit → Code α} (hb : v.held b = true)
    (h : (k ()).Returns viewInterp Q (v.unlock b)) : (brelse b >>= k).Returns viewInterp Q v :=
  .op (by simp [viewInterp, hb]) h

theorem returns_update {k : Unit → Code α} (hb : v.held b = false)
    (h : (k ()).Returns viewInterp Q (v.set b c)) :
    (store b c >>= fun _ => logWrite b >>= fun _ => brelse b >>= k).Returns viewInterp Q
      (v.lock b) := by
  apply returns_store (by simp)
  apply returns_logWrite (by simp)
  apply returns_brelse (by simp)
  rw [View.set_lock, View.unlock_lock (v := v.set b c) hb]
  exact h

theorem reads_release {k : Unit → Code α} (hb : v.held b = false)
    (h : (k ()).Returns readInterp Q v) : (brelse b >>= k).Returns readInterp Q (v.lock b) := by
  refine .op (r := ()) (t := (v.lock b).unlock b) (by simp [readInterp]) ?_
  rw [View.unlock_lock hb]
  exact h

theorem returns_of_reads {p : Code α} (h : p.Returns readInterp Q v) : p.Returns viewInterp Q v :=
  h.simulate (f := id) (fun _ _ _ _ => viewInterp_of_read) fun _ _ hQ => hQ

theorem returns_release {k : Unit → Code α} (hb : v.held b = false)
    (h : (k ()).Returns viewInterp Q v) : (brelse b >>= k).Returns viewInterp Q (v.lock b) := by
  apply returns_brelse (by simp)
  rw [View.unlock_lock hb]
  exact h

end Rules

end Xv6.Fs
