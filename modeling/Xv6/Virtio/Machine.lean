import Xv6.Lib.Ring
import Xv6.Lib.System
import Xv6.Virtio.Driver

/-! `virtio_disk_rw` and `virtio_disk_intr`, called by any number of threads, and the device. The
driver takes its steps with `vdisk_lock` held, and the device takes its own between any two of them.
A thread that sleeps can wake up at any time. -/
namespace Xv6.Virtio

open Lib

structure Buf (D : Type) where
  blockno : BitVec 32
  disk : Bool
  data : D

/-- `uint64 sector = b->blockno * (BSIZE / 512)`. -/
def Buf.sector {D : Type} (b : Buf D) : BitVec 64 := (b.blockno * 2).setWidth 64

/-- The device: the next entry of the avail ring, the requests that it has taken and those that it has
performed, and the contents of the disk. -/
structure Device (D : Type) where
  seen : BitVec 16
  taken : List ℕ
  performed : List ℕ
  store : BitVec 64 → D

/-- What has happened. `serial` is the number of the last request with a first descriptor, of `count`
requests so far, `served` counts the entries of the used ring for each, and `acked` how often the
driver has been told. -/
structure History where
  serial : ℕ → ℕ
  count : ℕ
  served : ℕ → ℕ
  acked : ℕ → ℕ

/-- Where a thread is in `virtio_disk_rw(b, write)`, with the number of its request after it has told
the device, or in `virtio_disk_intr`. The threads at `lock...` wait for `vdisk_lock`, also when they
sleep. -/
inductive Pc (B : Type) where
  | idle
  | lockAlloc (b : B) (write : Bool)
  | alloc (b : B) (write : Bool)
  | format0 (b : B) (write : Bool) (idx : Idx)
  | format1 (b : B) (write : Bool) (idx : Idx)
  | format2 (b : B) (write : Bool) (idx : Idx)
  | record (b : B) (write : Bool) (idx : Idx)
  | ring (b : B) (write : Bool) (idx : Idx)
  | publish (b : B) (write : Bool) (idx : Idx)
  | wait (b : B) (write : Bool) (idx : Idx) (n : ℕ)
  | lockWait (b : B) (write : Bool) (idx : Idx) (n : ℕ)
  | clear (b : B) (write : Bool) (idx : Idx) (n : ℕ)
  | freeChain (b : B) (write : Bool) (idx : Idx) (n i : ℕ)
  | exit (b : B) (n : ℕ)
  | lockIntr
  | intr
  | panic (msg : String)
  | fault

structure State (T B D : Type) where
  disk : Disk B
  dev : Device D
  buf : B → Buf D
  lock : Option T
  pc : T → Pc B
  hist : History

namespace Pc

variable {B : Type}

def buf : Pc B → Option B
  | lockAlloc b _ | alloc b _ | format0 b _ _ | format1 b _ _ | format2 b _ _ | record b _ _
  | ring b _ _ | publish b _ _ | wait b _ _ _ | lockWait b _ _ _ | clear b _ _ _
  | freeChain b _ _ _ _ | exit b _ => some b
  | _ => none

def holds : Pc B → Bool
  | idle | lockAlloc .. | lockWait .. | lockIntr => false
  | _ => true

end Pc

variable {T B D : Type} [DecidableEq T] [DecidableEq B]

def State.goto (s : State T B D) (t : T) (k : Pc B) : State T B D :=
  { s with pc := Function.update s.pc t k }

/-- The entry of the used ring that the driver looks at next. -/
def State.usedId (s : State T B D) : ℕ := s.disk.usedRing (Ring.slot num s.disk.usedSeen)

/-- The device carries out the request in `ops[i]`, with the data in buffer `b`. -/
def State.transfer (s : State T B D) (i : ℕ) (b : B) : State T B D :=
  if (s.disk.ops i).type = 1 then
    { s with dev := { s.dev with
        store := Function.update s.dev.store (s.disk.ops i).sector (s.buf b).data } }
  else
    { s with
      buf := Function.update s.buf b { s.buf b with data := s.dev.store (s.disk.ops i).sector } }

section

variable (s : State T B D) (i : ℕ) (b c : B)

omit [DecidableEq T]

@[simp] theorem pc_transfer : (s.transfer i b).pc = s.pc := by
  unfold State.transfer
  split <;> rfl

@[simp] theorem lock_transfer : (s.transfer i b).lock = s.lock := by
  unfold State.transfer
  split <;> rfl

@[simp] theorem hist_transfer : (s.transfer i b).hist = s.hist := by
  unfold State.transfer
  split <;> rfl

@[simp] theorem seen_transfer : (s.transfer i b).dev.seen = s.dev.seen := by
  unfold State.transfer
  split <;> rfl

@[simp] theorem blockno_transfer : ((s.transfer i b).buf c).blockno = (s.buf c).blockno := by
  unfold State.transfer
  split
  · rfl
  · by_cases hc : c = b
    · simp [hc]
    · simp [hc]

@[simp] theorem disk_transfer : ((s.transfer i b).buf c).disk = (s.buf c).disk := by
  unfold State.transfer
  split
  · rfl
  · by_cases hc : c = b
    · simp [hc]
    · simp [hc]

end

inductive Step : State T B D → State T B D → Prop
  -- virtio_disk_rw, whose caller holds the sleep lock of the buffer
  | call {s} (t b write) (h : s.pc t = .idle) (hb : ∀ u, (s.pc u).buf ≠ some b) :
      Step s (s.goto t (.lockAlloc b write))
  | lockAlloc {s} (t b write) (h : s.pc t = .lockAlloc b write) (hl : s.lock = none) :
      Step s { s.goto t (.alloc b write) with lock := some t }
  | alloc {s} (t b write idx d) (h : s.pc t = .alloc b write)
      (ha : alloc3Desc s.disk = .ok (some idx, d)) :
      Step s { s.goto t (.format0 b write idx) with disk := d }
  | allocSleep {s} (t b write d) (h : s.pc t = .alloc b write)
      (ha : alloc3Desc s.disk = .ok (none, d)) :
      Step s { s.goto t (.lockAlloc b write) with disk := d, lock := none }
  | allocPanic {s} (t b write msg) (h : s.pc t = .alloc b write)
      (ha : alloc3Desc s.disk = .error msg) :
      Step s (s.goto t (.panic msg))
  | format0 {s} (t b write idx) (h : s.pc t = .format0 b write idx) :
      Step s { s.goto t (.format1 b write idx) with
        disk := format0 (s.buf b).sector write idx s.disk }
  | format1 {s} (t b write idx) (h : s.pc t = .format1 b write idx) :
      Step s { s.goto t (.format2 b write idx) with disk := format1 b write idx s.disk }
  | format2 {s} (t b write idx) (h : s.pc t = .format2 b write idx) :
      Step s { s.goto t (.record b write idx) with disk := format2 idx s.disk }
  | record {s} (t b write idx) (h : s.pc t = .record b write idx) :
      Step s { s.goto t (.ring b write idx) with
        buf := Function.update s.buf b { s.buf b with disk := true }
        disk := { s.disk with
          info := Function.update s.disk.info idx.i0 { s.disk.info idx.i0 with b := some b } } }
  | ring {s} (t b write idx) (h : s.pc t = .ring b write idx) :
      Step s { s.goto t (.publish b write idx) with
        disk := { s.disk with
          availRing := Function.update s.disk.availRing (Ring.slot num s.disk.availIdx) idx.i0 } }
  | publish {s} (t b write idx) (h : s.pc t = .publish b write idx) :
      Step s { s.goto t (.wait b write idx s.hist.count) with
        disk := { s.disk with availIdx := s.disk.availIdx + 1 }
        hist := { s.hist with
          serial := Function.update s.hist.serial idx.i0 s.hist.count
          count := s.hist.count + 1 } }
  | wait {s} (t b write idx n) (h : s.pc t = .wait b write idx n) (hd : (s.buf b).disk = true) :
      Step s { s.goto t (.lockWait b write idx n) with lock := none }
  | lockWait {s} (t b write idx n) (h : s.pc t = .lockWait b write idx n) (hl : s.lock = none) :
      Step s { s.goto t (.wait b write idx n) with lock := some t }
  | waitDone {s} (t b write idx n) (h : s.pc t = .wait b write idx n)
      (hd : (s.buf b).disk = false) : Step s (s.goto t (.clear b write idx n))
  | clear {s} (t b write idx n) (h : s.pc t = .clear b write idx n) :
      Step s { s.goto t (.freeChain b write idx n idx.i0) with
        disk := { s.disk with
          info := Function.update s.disk.info idx.i0 { s.disk.info idx.i0 with b := none } } }
  | freeChain {s} (t b write idx n i d) (h : s.pc t = .freeChain b write idx n i)
      (hf : freeDesc i s.disk = .ok d) :
      Step s { s.goto t (if (s.disk.desc i).flags &&& flagNext = 0 then .exit b n
          else .freeChain b write idx n (s.disk.desc i).next) with disk := d }
  | freePanic {s} (t b write idx n i msg) (h : s.pc t = .freeChain b write idx n i)
      (hf : freeDesc i s.disk = .error msg) : Step s (s.goto t (.panic msg))
  | exit {s} (t b n) (h : s.pc t = .exit b n) : Step s { s.goto t .idle with lock := none }
  -- virtio_disk_intr
  | callIntr {s} (t) (h : s.pc t = .idle) : Step s (s.goto t .lockIntr)
  | lockIntr {s} (t) (h : s.pc t = .lockIntr) (hl : s.lock = none) :
      Step s { s.goto t .intr with lock := some t }
  | intr {s} (t b) (h : s.pc t = .intr) (hu : s.disk.usedSeen ≠ s.disk.usedIdx)
      (hs : (s.disk.info s.usedId).status = 0) (hb : (s.disk.info s.usedId).b = some b) :
      Step s { s with
        buf := Function.update s.buf b { s.buf b with disk := false }
        disk := { s.disk with usedSeen := s.disk.usedSeen + 1 }
        hist := { s.hist with
          acked := Function.update s.hist.acked (s.hist.serial s.usedId)
            (s.hist.acked (s.hist.serial s.usedId) + 1) } }
  | intrStatus {s} (t) (h : s.pc t = .intr) (hu : s.disk.usedSeen ≠ s.disk.usedIdx)
      (hs : (s.disk.info s.usedId).status ≠ 0) :
      Step s (s.goto t (.panic "virtio_disk_intr status"))
  | intrNull {s} (t) (h : s.pc t = .intr) (hu : s.disk.usedSeen ≠ s.disk.usedIdx)
      (hs : (s.disk.info s.usedId).status = 0) (hb : (s.disk.info s.usedId).b = none) :
      Step s (s.goto t .fault)
  | intrExit {s} (t) (h : s.pc t = .intr) (hu : s.disk.usedSeen = s.disk.usedIdx) :
      Step s { s.goto t .idle with lock := none }
  -- the device
  | take {s} (hu : s.dev.seen ≠ s.disk.availIdx) :
      Step s { s with dev := { s.dev with
        taken := s.dev.taken ++ [s.disk.availRing (Ring.slot num s.dev.seen)]
        seen := s.dev.seen + 1 } }
  | perform {s} (h i b j) (hm : h ∈ s.dev.taken) (h0 : (s.disk.desc h).addr = .req i)
      (h1 : (s.disk.desc (s.disk.desc h).next).addr = .data b)
      (h2 : (s.disk.desc (s.disk.desc (s.disk.desc h).next).next).addr = .status j) :
      Step s { s.transfer i b with
        disk := { s.disk with
          info := Function.update s.disk.info j { s.disk.info j with status := 0 } }
        dev := { (s.transfer i b).dev with
          taken := s.dev.taken.erase h, performed := s.dev.performed ++ [h] } }
  | complete {s} (h) (hm : h ∈ s.dev.performed) :
      Step s { s with
        disk := { s.disk with
          usedRing := Function.update s.disk.usedRing (Ring.slot num s.disk.usedIdx) h
          usedIdx := s.disk.usedIdx + 1 }
        dev := { s.dev with performed := s.dev.performed.erase h }
        hist := { s.hist with
          served := Function.update s.hist.served (s.hist.serial h)
            (s.hist.served (s.hist.serial h) + 1) } }
  -- buffers that the driver does not use
  | other {s} (b blockno data) (hb : ∀ u, (s.pc u).buf ≠ some b) :
      Step s { s with buf := Function.update s.buf b ⟨blockno, (s.buf b).disk, data⟩ }

structure Initial (s : State T B D) : Prop where
  free : ∀ i, i < num → s.disk.free i = true
  availIdx : s.disk.availIdx = 0
  usedIdx : s.disk.usedIdx = 0
  usedSeen : s.disk.usedSeen = 0
  seen : s.dev.seen = 0
  taken : s.dev.taken = []
  performed : s.dev.performed = []
  lock : s.lock = none
  pc : ∀ t, s.pc t = .idle
  count : s.hist.count = 0
  served : ∀ n, s.hist.served n = 0
  acked : ∀ n, s.hist.acked n = 0

def machine (T B D : Type) [DecidableEq T] [DecidableEq B] : System (State T B D) where
  init := Initial
  step := Step

end Xv6.Virtio
