import Mathlib.Data.BitVec
import Mathlib.Tactic

/-! The driver of the virtio disk (`kernel/virtio_disk.c`): descriptors, rings, and the functions that
allocate, format and free descriptors. -/
namespace Xv6.Virtio

/-- `NUM`, the number of descriptors and of entries of each ring. -/
def num : ℕ := 8

inductive Addr (B : Type) where
  | null
  | req (i : ℕ)
  | data (b : B)
  | status (i : ℕ)
  deriving DecidableEq

structure Desc (B : Type) where
  addr : Addr B
  len : ℕ
  flags : BitVec 16
  next : ℕ
  deriving DecidableEq

def flagNext : BitVec 16 := 1

def flagWrite : BitVec 16 := 2

structure BlkReq where
  type : ℕ
  reserved : ℕ
  sector : BitVec 64
  deriving DecidableEq

structure Info (B : Type) where
  b : Option B
  status : UInt8
  deriving DecidableEq

/-- `struct disk`, with the two rings. `usedSeen` is `used_idx`, and `usedIdx` is `used->idx`. -/
structure Disk (B : Type) where
  desc : ℕ → Desc B
  availRing : ℕ → ℕ
  availIdx : BitVec 16
  usedRing : ℕ → ℕ
  usedIdx : BitVec 16
  free : ℕ → Bool
  usedSeen : BitVec 16
  info : ℕ → Info B
  ops : ℕ → BlkReq

structure Idx where
  i0 : ℕ
  i1 : ℕ
  i2 : ℕ
  deriving DecidableEq

def Idx.list (idx : Idx) : List ℕ := [idx.i0, idx.i1, idx.i2]

variable {B : Type}

def allocDesc (d : Disk B) : Option ℕ × Disk B :=
  match (List.range num).find? d.free with
  | some i => (some i, { d with free := Function.update d.free i false })
  | none => (none, d)

def freeDesc (i : ℕ) (d : Disk B) : Except String (Disk B) :=
  if num ≤ i then .error "free_desc 1"
  else if d.free i then .error "free_desc 2"
  else .ok { d with
    desc := Function.update d.desc i ⟨.null, 0, 0, 0⟩
    free := Function.update d.free i true }

def freeAll : List ℕ → Disk B → Except String (Disk B)
  | [], d => .ok d
  | i :: l, d => freeDesc i d >>= freeAll l

/-- The loop of `alloc3_desc`, with `n` descriptors to go. -/
def allocLoop : ℕ → List ℕ → Disk B → Except String (Option (List ℕ) × Disk B)
  | 0, idx, d => .ok (some idx, d)
  | n + 1, idx, d =>
    match allocDesc d with
    | (some i, d) => allocLoop n (idx ++ [i]) d
    | (none, d) => (freeAll idx d).map fun d => (none, d)

def alloc3Desc (d : Disk B) : Except String (Option Idx × Disk B) :=
  (allocLoop 3 [] d).map fun
    | (some [i, j, k], d) => (some ⟨i, j, k⟩, d)
    | (_, d) => (none, d)

/-- `virtio_disk_rw` formats the first descriptor. -/
def format0 (sector : BitVec 64) (write : Bool) (idx : Idx) (d : Disk B) : Disk B :=
  { d with
    ops := Function.update d.ops idx.i0 ⟨if write then 1 else 0, 0, sector⟩
    desc := Function.update d.desc idx.i0 ⟨.req idx.i0, 16, flagNext, idx.i1⟩ }

def format1 (b : B) (write : Bool) (idx : Idx) (d : Disk B) : Disk B :=
  { d with
    desc := Function.update d.desc idx.i1
      ⟨.data b, 1024, (if write then 0 else flagWrite) ||| flagNext, idx.i2⟩ }

def format2 (idx : Idx) (d : Disk B) : Disk B :=
  { d with
    info := Function.update d.info idx.i0 { d.info idx.i0 with status := 0xff }
    desc := Function.update d.desc idx.i2 ⟨.status idx.i0, 1, flagWrite, 0⟩ }

structure SameBut (d e : Disk B) (l : List ℕ) : Prop where
  desc : ∀ i ∉ l, e.desc i = d.desc i
  availRing : e.availRing = d.availRing
  availIdx : e.availIdx = d.availIdx
  usedRing : e.usedRing = d.usedRing
  usedIdx : e.usedIdx = d.usedIdx
  usedSeen : e.usedSeen = d.usedSeen
  info : e.info = d.info
  ops : e.ops = d.ops

theorem SameBut.refl (d : Disk B) (l : List ℕ) : SameBut d d l :=
  ⟨fun _ _ => rfl, rfl, rfl, rfl, rfl, rfl, rfl, rfl⟩

theorem allocDesc_some {d e : Disk B} {i : ℕ} (h : allocDesc d = (some i, e)) :
    i < num ∧ d.free i = true ∧ e = { d with free := Function.update d.free i false } := by
  unfold allocDesc at h
  split at h
  · rename_i j hj
    cases h
    exact ⟨List.mem_range.mp (List.mem_of_find?_eq_some hj), List.find?_some hj, rfl⟩
  · cases h

theorem allocDesc_none {d e : Disk B} (h : allocDesc d = (none, e)) : e = d := by
  unfold allocDesc at h
  split at h
  · cases h
  · cases h
    rfl

theorem freeDesc_ok {d : Disk B} {i : ℕ} (hi : i < num) (hf : d.free i = false) :
    freeDesc i d = .ok { d with
      desc := Function.update d.desc i ⟨.null, 0, 0, 0⟩
      free := Function.update d.free i true } := by
  simp [freeDesc, hf, Nat.not_le.mpr hi]

/-- Descriptors in use can be freed one after the other, and no others change. -/
theorem freeAll_spec {l : List ℕ} {d : Disk B} (hl : l.Nodup) (hb : ∀ i ∈ l, i < num)
    (hf : ∀ i ∈ l, d.free i = false) :
    ∃ e, freeAll l d = .ok e ∧ SameBut d e l ∧ e.free = fun i => decide (i ∈ l) || d.free i := by
  induction l generalizing d with
  | nil => exact ⟨d, rfl, .refl d [], by simp⟩
  | cons i l ih =>
    obtain ⟨hil, hl⟩ := List.nodup_cons.mp hl
    have hfi := freeDesc_ok (hb i List.mem_cons_self) (hf i List.mem_cons_self)
    have hne : ∀ j ∈ l, j ≠ i := by
      rintro j hj rfl
      exact hil hj
    obtain ⟨e, he, hs, hfe⟩ := ih (d := { d with
        desc := Function.update d.desc i ⟨.null, 0, 0, 0⟩
        free := Function.update d.free i true }) hl
      (fun j hj => hb j (List.mem_cons_of_mem _ hj))
      (fun j hj => by simpa [hne j hj] using hf j (List.mem_cons_of_mem _ hj))
    refine ⟨e, ?_, ⟨?_, hs.2, hs.3, hs.4, hs.5, hs.6, hs.7, hs.8⟩, ?_⟩
    · rw [freeAll, hfi]
      exact he
    · intro j hj
      obtain ⟨hji, hjl⟩ : j ≠ i ∧ j ∉ l := by simpa using hj
      rw [hs.desc j hjl]
      simp [hji]
    · rw [hfe]
      funext j
      by_cases hji : j = i
      · simp [hji]
      · simp [hji]

/-- `alloc3_desc` finds three free descriptors, or leaves the free ones free. It does not panic. -/
theorem allocLoop_spec {n : ℕ} {r : List ℕ} {d : Disk B} (hl : r.Nodup)
    (hb : ∀ i ∈ r, i < num) (hf : ∀ i ∈ r, d.free i = false) :
    (∃ l, allocLoop n r d =
        .ok (some (r ++ l), { d with free := fun i => !decide (i ∈ l) && d.free i }) ∧
      l.length = n ∧ (r ++ l).Nodup ∧ ∀ i ∈ l, i < num ∧ d.free i = true) ∨
    ∃ e l, allocLoop n r d = .ok (none, e) ∧ SameBut d e (r ++ l) ∧
      (∀ i ∈ l, d.free i = true) ∧ e.free = fun i => decide (i ∈ r) || d.free i := by
  induction n generalizing r d with
  | zero => exact Or.inl ⟨[], by simp [allocLoop], rfl, by simpa using hl, by simp⟩
  | succ n ih =>
    cases ha : allocDesc d with
    | mk o d' =>
      cases o with
      | none =>
        obtain rfl := allocDesc_none ha
        obtain ⟨e, he, hs, hfe⟩ := freeAll_spec hl hb hf
        refine Or.inr ⟨e, [], ?_, by simpa using hs, by simp, hfe⟩
        simp [allocLoop, ha, he, Except.map]
      | some i =>
        obtain ⟨hi, hfi, rfl⟩ := allocDesc_some ha
        have hir : i ∉ r := by
          intro hm
          rw [hf i hm] at hfi
          cases hfi
        have hne : ∀ j ∈ r, j ≠ i := by
          rintro j hj rfl
          exact hir hj
        have hloop : allocLoop (n + 1) r d =
            allocLoop n (r ++ [i]) { d with free := Function.update d.free i false } := by
          simp [allocLoop, ha]
        rw [hloop]
        rcases ih (r := r ++ [i]) (d := { d with free := Function.update d.free i false })
          (by simpa using List.Nodup.append hl (List.nodup_singleton i) (by simpa using hir))
          (by simpa [or_imp, forall_and] using ⟨hb, hi⟩)
          (by
            intro j hj
            by_cases hji : j = i
            · simp [hji]
            · simpa [hji] using hf j (by simpa [hji] using hj)) with
          ⟨l, he, hlen, hnd, hfree⟩ | ⟨e, l, he, hs, hfree, hfe⟩
        · refine Or.inl ⟨i :: l, ?_, by simp [hlen], by simpa using hnd, ?_⟩
          · rw [he, List.append_assoc, List.singleton_append]
            congr 4
            funext j
            by_cases hji : j = i
            · simp [hji]
            · simp [hji]
          · intro j hj
            rcases List.mem_cons.mp hj with rfl | hj
            · exact ⟨hi, hfi⟩
            · obtain ⟨hjn, hjf⟩ := hfree j hj
              have hji : j ≠ i := by
                rintro rfl
                simp at hjf
              exact ⟨hjn, by simpa [hji] using hjf⟩
        · refine Or.inr ⟨e, i :: l, he, ?_, ?_, ?_⟩
          · rw [List.append_assoc, List.singleton_append] at hs
            exact ⟨hs.1, hs.2, hs.3, hs.4, hs.5, hs.6, hs.7, hs.8⟩
          · intro j hj
            by_cases hji : j = i
            · rw [hji]
              exact hfi
            · have := hfree j (by simpa [hji] using hj)
              simpa [hji] using this
          · rw [hfe]
            funext j
            by_cases hji : j = i
            · simp [hji, hfi]
            · simp [hji]

/-- `alloc3_desc` does not panic. It returns three free descriptors, which it has marked, or leaves the
free ones free. -/
theorem alloc3Desc_spec (d : Disk B) :
    (∃ idx : Idx, alloc3Desc d =
        .ok (some idx, { d with free := fun i => !decide (i ∈ idx.list) && d.free i }) ∧
      idx.list.Nodup ∧ ∀ i ∈ idx.list, i < num ∧ d.free i = true) ∨
    ∃ e l, alloc3Desc d = .ok (none, e) ∧ SameBut d e l ∧ (∀ i ∈ l, d.free i = true) ∧
      e.free = d.free := by
  rcases allocLoop_spec (n := 3) (r := []) (d := d) List.nodup_nil (by simp) (by simp) with
    ⟨l, he, hlen, hnd, hfree⟩ | ⟨e, l, he, hs, hfree, hfe⟩
  · obtain ⟨i, j, k, rfl⟩ := List.length_eq_three.mp hlen
    refine Or.inl ⟨⟨i, j, k⟩, ?_, by simpa [Idx.list] using hnd, by simpa [Idx.list] using hfree⟩
    simp [alloc3Desc, he, Except.map, Idx.list]
  · refine Or.inr ⟨e, l, ?_, by simpa using hs, hfree, by simpa using hfe⟩
    simp [alloc3Desc, he, Except.map]

theorem alloc3Desc_some {d e : Disk B} {idx : Idx} (h : alloc3Desc d = .ok (some idx, e)) :
    e = { d with free := fun i => !decide (i ∈ idx.list) && d.free i } ∧ idx.list.Nodup ∧
      ∀ i ∈ idx.list, i < num ∧ d.free i = true := by
  rcases alloc3Desc_spec d with ⟨idx', he, hnd, hfree⟩ | ⟨e', l, he, -⟩
  · rw [he] at h
    cases h
    exact ⟨rfl, hnd, hfree⟩
  · rw [he] at h
    cases h

theorem alloc3Desc_none {d e : Disk B} (h : alloc3Desc d = .ok (none, e)) :
    ∃ l, SameBut d e l ∧ (∀ i ∈ l, d.free i = true) ∧ e.free = d.free := by
  rcases alloc3Desc_spec d with ⟨idx, he, -⟩ | ⟨e', l, he, hs⟩
  · rw [he] at h
    cases h
  · rw [he] at h
    cases h
    exact ⟨l, hs⟩

theorem alloc3Desc_ne_error (d : Disk B) (msg : String) : alloc3Desc d ≠ .error msg := by
  intro h
  rcases alloc3Desc_spec d with ⟨idx, he, -⟩ | ⟨e, l, he, -⟩
  · rw [he] at h
    cases h
  · rw [he] at h
    cases h

end Xv6.Virtio
