import Xv6.Exec.Program
import Xv6.Vm.Store

/-! Loading a segment: `loadseg` stores the bytes of the file in the pages of the segment. -/
namespace Xv6.Exec

open Lib Vm Proc

def fileBytes (c : List UInt8) (off sz : ℕ) : Option (List UInt8) :=
  if sz = 0 then some [] else if off + sz ≤ c.length then some ((c.drop off).take sz) else none

def AllUser (img : Image) (n : ℕ) : Prop := ∀ v < n, img.flags v &&& pteU ≠ 0

variable {L : Layout} {m m' : Kmem} {t t' : Radix.Tree fanout ℕ 2} {img : Image} {A : Multiset ℕ}
  {c b : List UInt8} {va offset sz n tf off i : ℕ}

/-! Reading a segment. -/

theorem length_flatRead_eq_iff (hn : 0 < n) (hc : c.length < 2 ^ 32) :
    (Fs.flatRead c off n).length = n ↔ off + n ≤ c.length := by
  unfold Fs.flatRead
  split_ifs with h
  · constructor
    · intro h0
      simp only [List.length_nil] at h0
      omega
    · omega
  · rw [List.length_take, List.length_drop]
    omega

theorem flatRead_eq (h : off + n ≤ c.length) (hc : c.length < 2 ^ 32) :
    Fs.flatRead c off n = (c.drop off).take n := by
  unfold Fs.flatRead
  rw [if_neg (by omega)]

theorem fileBytes_add {r : ℕ} (h : off + n ≤ c.length) :
    fileBytes c off (n + r) = (fileBytes c (off + n) r).map ((c.drop off).take n ++ ·) := by
  have htake : (c.drop off).take (n + r) = (c.drop off).take n ++ (c.drop (off + n)).take r := by
    rw [List.take_add, List.drop_drop]
  unfold fileBytes
  by_cases hr : r = 0
  · rw [hr, Nat.add_zero, if_pos rfl, Option.map_some, List.append_nil]
    split_ifs with hn
    · rw [hn, List.take_zero]
    · rfl
  · rw [if_neg (by omega), if_neg hr]
    by_cases hle : off + n + r ≤ c.length
    · rw [if_pos (by omega), if_pos hle, Option.map_some, htake]
    · rw [if_neg (by omega), if_neg hle, Option.map_none]

theorem fileBytes_eq_none {r : ℕ} (hn : 0 < n) (hr : n ≤ r) (h : ¬off + n ≤ c.length) :
    fileBytes c off r = none := by
  unfold fileBytes
  rw [if_neg (by omega), if_neg (by omega)]

/-- What `loadseg` does: only pages of the segment are written to. -/
structure SegLoaded (L : Layout) (m m' : Kmem) (t : Radix.Tree fanout ℕ 2) (n : ℕ) (img : Image)
    (tf : ℕ) (A : Multiset ℕ) (va : ℕ) (bytes : Option (List UInt8)) (ok : Bool) : Prop where
  outside : SameOutside m m' A
  took : Took m m' [] true
  uvm : ∃ img', Uvm L m' t n img' tf A ∧ img'.flags = img.flags
  done : ok = true → ∃ b, bytes = some b ∧ Uvm L m' t n (img.write va b) tf A
  failed : ok = false → bytes = none

theorem SegLoaded.cons {m₁ : Kmem} {r : Option (List UInt8)} {ok : Bool}
    (h : SegLoaded L m₁ m' t n (img.write va b) tf A (va + b.length) r ok)
    (hout : SameOutside m m₁ A) (htook : Took m m₁ [] true) :
    SegLoaded L m m' t n img tf A va (r.map (b ++ ·)) ok := by
  refine ⟨hout.trans h.outside, htook.trans h.took, h.uvm, fun hok => ?_, fun hok => ?_⟩
  · obtain ⟨b', hr, hu⟩ := h.done hok
    refine ⟨b ++ b', by rw [hr, Option.map_some], ?_⟩
    rw [← Image.write_append]
    exact hu
  · rw [h.failed hok, Option.map_none]

theorem loadsegLoop_done {E : String → Prop} {fuel : ℕ} (a : ℕ) (h : Uvm L m t n img tf A)
    (hle : sz ≤ i) :
    Ensures E (loadsegLoop c t.label va offset sz fuel i) (fun ok m' =>
      SegLoaded L m m' t n img tf A a (some []) ok) m := by
  have hdone : SegLoaded L m m t n img tf A a (some []) true := by
    refine ⟨SameOutside.refl m A, Took.refl m, ⟨img, h, rfl⟩, fun _ => ⟨[], rfl, ?_⟩,
      fun hok => (by cases hok)⟩
    rw [Image.write_nil]
    exact h
  cases fuel with
  | zero => exact hdone
  | succ fuel =>
    rw [loadsegLoop, if_neg (by omega)]
    exact hdone

theorem walkaddr_user (h : Uvm L m t n img tf A) (hU : AllUser img n) (ha : va < n * pgSize) :
    va / pgSize < n ∧ walkaddr t.label va m = .ok (pte2pa (t.find 0 (va / pgSize)), m) ∧
      L.Ram (pte2pa (t.find 0 (va / pgSize))) := by
  have hle := h.le
  have hvn : va / pgSize < n := Nat.div_lt_of_lt_mul (by rwa [Nat.mul_comm])
  have hbound : va < maxVa := by
    unfold maxVa
    rw [pgSize_eq] at *
    omega
  have hu : t.find 0 (va / pgSize) &&& pteU ≠ 0 := by
    rw [h.and_flags hvn (by decide)]
    exact hU _ hvn
  refine ⟨hvn, ?_, h.space.ram _ (h.space.mem_of_data (Uvm.mem_data hvn))⟩
  rw [walkaddr_eq va h.space.rep, if_pos ⟨hbound, (h.leaf hvn).valid, hu⟩]

theorem length_flatRead_le : (Fs.flatRead c off n).length ≤ n := by
  unfold Fs.flatRead
  split_ifs
  · exact Nat.zero_le _
  · rw [List.length_take]
    exact Nat.min_le_left _ _

/-- `loadseg` copies page by page, until the file ends too early. -/
theorem loadsegLoop_spec (fuel : ℕ) (h : Uvm L m t n img tf A) (hU : AllUser img n)
    (hva : va % pgSize = 0) (hi : i % pgSize = 0) (hmap : va + sz ≤ n * pgSize)
    (hoff : offset + i < 2 ^ 32) (hfuel : sz ≤ i + fuel * pgSize) (hc : c.length < 2 ^ 32) :
    Ensures (fun _ => False) (loadsegLoop c t.label va offset sz fuel i) (fun ok m' =>
      SegLoaded L m m' t n img tf A (va + i) (fileBytes c (offset + i) (sz - i)) ok) m := by
  have hzero : ∀ off, fileBytes c off 0 = some [] := fun off => if_pos rfl
  induction fuel generalizing m img i with
  | zero =>
    rw [Nat.sub_eq_zero_of_le (by omega), hzero]
    exact loadsegLoop_done _ h (by omega)
  | succ fuel ih =>
    by_cases hlt : i < sz
    swap
    · rw [Nat.sub_eq_zero_of_le (by omega), hzero]
      exact loadsegLoop_done _ h (by omega)
    have hle := h.le
    obtain ⟨hvn, hwalk, hram⟩ := walkaddr_user h hU (show va + i < n * pgSize by omega)
    have haddr : (va + i) / pgSize * pgSize + 0 = va + i := by
      rw [pgSize_eq] at *
      omega
    have hmod : (va + i) % 2 ^ 64 = va + i := by
      rw [pgSize_eq] at *
      omega
    have hmod' : (i + pgSize) % 2 ^ 32 = i + pgSize := by
      rw [pgSize_eq] at *
      omega
    rw [loadsegLoop, if_pos hlt, hmod, Nat.mod_eq_of_lt hoff, hmod']
    refine Ensures.bind_ok hwalk ?_
    rw [if_neg hram.pos.ne']
    generalize hN : (if sz - i < pgSize then sz - i else pgSize) = N
    obtain ⟨hpos, hNsz, hNpg, hlast⟩ :
        0 < N ∧ N ≤ sz - i ∧ N ≤ pgSize ∧ (N = pgSize ∨ sz - i = N) := by
      rw [← hN, pgSize_eq]
      split_ifs <;> omega
    have hlen : (Fs.flatRead c (offset + i) N).length ≤ N := length_flatRead_le
    refine Ensures.bind_ok rfl ?_
    have hstore := h.store hvn 0 (Fs.flatRead c (offset + i) N) (by omega)
    rw [haddr] at hstore
    generalize hm₁ : m.setPage (pte2pa (t.find 0 ((va + i) / pgSize)))
      ((m.page (pte2pa (t.find 0 ((va + i) / pgSize)))).blit 0 (Fs.flatRead c (offset + i) N)) = m₁
      at hstore ⊢
    have hout : SameOutside m m₁ A := fun a ha => by
      rw [← hm₁]
      exact Kmem.page_setPage_of_ne fun he => ha (he ▸ h.space.mem_of_data (Uvm.mem_data hvn))
    have htook : Took m m₁ [] true := by
      rw [← hm₁]
      exact (Took.refl m).setPage _ _
    by_cases hread : (Fs.flatRead c (offset + i) N).length = N
    swap
    · rw [if_pos hread]
      refine ⟨hout, htook, ⟨_, hstore, rfl⟩, fun hok => (by cases hok), fun _ => ?_⟩
      exact fileBytes_eq_none hpos hNsz
        fun hc' => hread ((length_flatRead_eq_iff hpos hc).mpr hc')
    have hin := (length_flatRead_eq_iff hpos hc).mp hread
    -- the bytes of this round, and those of the rounds that follow
    obtain ⟨r, hr⟩ : ∃ r, sz - i = N + r := ⟨sz - i - N, by omega⟩
    have hrest : Ensures (fun _ => False) (loadsegLoop c t.label va offset sz fuel (i + pgSize))
        (fun ok m' => SegLoaded L m₁ m' t n (img.write (va + i) (Fs.flatRead c (offset + i) N)) tf A
          (va + i + N) (fileBytes c (offset + i + N) r) ok) m₁ := by
      rcases hlast with hlast | hlast
      · subst hlast
        have := ih hstore hU (by rw [Nat.add_mod_right, hi]) (by omega)
          (by rw [Nat.add_mul] at hfuel; omega)
        rwa [← Nat.add_assoc, ← Nat.add_assoc, show sz - (i + pgSize) = r by omega] at this
      · obtain rfl : r = 0 := by omega
        rw [hzero]
        exact loadsegLoop_done _ hstore (by omega)
    rw [if_neg (not_not.mpr hread), hr, fileBytes_add hin, ← flatRead_eq hin hc]
    refine hrest.mono fun ok m' hs => SegLoaded.cons ?_ hout htook
    rw [hread]
    exact hs

theorem loadseg_spec (h : Uvm L m t n img tf A) (hU : AllUser img n) (hva : va % pgSize = 0)
    (hmap : va + sz ≤ n * pgSize) (hoff : offset < 2 ^ 32) (hc : c.length < 2 ^ 32) :
    Ensures (fun _ => False) (loadseg c t.label va offset sz) (fun ok m' =>
      SegLoaded L m m' t n img tf A va (fileBytes c offset sz) ok) m :=
  loadsegLoop_spec ((sz + (pgSize - 1)) / pgSize) h hU hva (Nat.zero_mod _) hmap hoff (by
    rw [pgSize_eq]
    omega) hc

end Xv6.Exec
