import Xv6.Vm.Create

/-! Bytes of user memory: stores to user pages, `uvmclear` and `copyout` in an address space. -/
namespace Xv6.Vm

open Lib Lib.Radix

namespace Image

def byte (img : Image) (va : ℕ) : UInt8 := (img.page (va / pgSize)).get (va % pgSize)

def write (img : Image) (va : ℕ) (l : List UInt8) : Image where
  flags := img.flags
  page v i := if va ≤ v * pgSize + i ∧ v * pgSize + i < va + l.length then l.getD (v * pgSize + i - va) 0
    else img.page v i

variable {img : Image} {va a v off : ℕ} {l l' : List UInt8}

@[simp] theorem flags_write : (img.write va l).flags = img.flags := rfl

theorem byte_write : (img.write va l).byte a =
    if va ≤ a ∧ a < va + l.length then l.getD (a - va) 0 else img.byte a := by
  have hlt : a % pgSize < pgSize := Nat.mod_lt a (by decide)
  have haddr : a / pgSize * pgSize + a % pgSize = a := Nat.div_add_mod' a pgSize
  rw [byte, byte, Bytes.get, Bytes.get, dif_pos hlt, dif_pos hlt]
  show (if va ≤ a / pgSize * pgSize + a % pgSize ∧ a / pgSize * pgSize + a % pgSize < va + l.length then
    l.getD (a / pgSize * pgSize + a % pgSize - va) 0 else _) = _
  rw [haddr]

theorem write_nil (img : Image) (va : ℕ) : img.write va [] = img := by
  unfold write
  congr 1
  funext v i
  rw [if_neg (by simp)]

theorem write_append : (img.write va l).write (va + l.length) l' = img.write va (l ++ l') := by
  unfold write
  congr 1
  funext v i
  show (if _ then _ else if _ then _ else _) = _
  rw [List.length_append]
  split_ifs with h1 h2 h3 h4 h5
  · rw [List.getD_append_right _ _ _ _ (by omega), Nat.sub_sub]
  · omega
  · rw [List.getD_append _ _ _ _ (by omega)]
  · omega
  · omega
  · rfl

theorem page_write_self :
    (img.write (v * pgSize + off) l).page v = (img.page v).blit off l := by
  funext i
  show (if _ then _ else _) = if _ then _ else _
  split_ifs with h1 h2 h2
  · congr 1
    omega
  · omega
  · omega
  · rfl

theorem page_write_of_ne {w : ℕ} (h : off + l.length ≤ pgSize) (hw : w ≠ v) :
    (img.write (v * pgSize + off) l).page w = img.page w := by
  funext i
  have hi : (i : ℕ) < 4096 := i.isLt
  rw [pgSize_eq] at h
  show (if v * 4096 + off ≤ w * 4096 + i ∧ w * 4096 + i < v * 4096 + off + l.length then _ else _) = _
  rw [if_neg]
  omega

end Image

variable {L : Layout} {m m' : Kmem} {t t' : Table 2} {img : Image} {A : Multiset ℕ}
  {v w n tf : ℕ} {l : List UInt8}

namespace Uvm

theorem pa_inj (h : Uvm L m t n img tf A) (hv : v < n) (hw : w < n)
    (he : pte2pa (t.find 0 v) = pte2pa (t.find 0 w)) : v = w :=
  Multiset.inj_on_of_nodup_map h.space.nodup_parts.2.1 v (Multiset.mem_range.mpr hv) w
    (Multiset.mem_range.mpr hw) he

theorem store (h : Uvm L m t n img tf A) (hv : v < n) (off : ℕ) (l : List UInt8)
    (hoff : off + l.length ≤ pgSize) :
    Uvm L (m.setPage (pte2pa (t.find 0 v)) ((m.page (pte2pa (t.find 0 v))).blit off l)) t n
      (img.write (v * pgSize + off) l) tf A := by
  have hdata := mem_data (t := t) hv
  refine ⟨h.space.congr rfl fun a ha => Kmem.page_setPage_of_ne fun he =>
    h.space.data_not_label hdata (he ▸ ha), h.flags, fun w hw => ?_, h.rest, h.upper, h.trapframe,
    h.trampoline⟩
  by_cases hwv : w = v
  · rw [hwv, Kmem.page_setPage_self, h.page v hv, Image.page_write_self]
  · rw [Kmem.page_setPage_of_ne fun he => hwv (h.pa_inj hw hv he), h.page w hw,
      Image.page_write_of_ne hoff hwv]

theorem and_flags {x : ℕ} (h : Uvm L m t n img tf A) (hv : v < n) (hx : x < 1024) :
    t.find 0 v &&& x = img.flags v &&& x := by
  rw [← h.flags v hv, pteFlags, Nat.and_assoc]
  congr 1
  rw [Nat.and_comm, Nat.and_two_pow_sub_one_eq_mod x 10, Nat.mod_eq_of_lt hx]

end Uvm

theorem clearU_eq {x : ℕ} (h : x &&& pteU = pteU) : clearU x = x - 16 ∧ 16 ≤ x % 1024 := by
  refine ⟨by rw [clearU, h]; rfl, ?_⟩
  have hle : x % 1024 &&& pteU ≤ x % 1024 := Nat.and_le_left
  have hand : x % 1024 &&& pteU = pteU := by
    rw [← Nat.and_two_pow_sub_one_eq_mod x 10, Nat.and_assoc]
    exact h
  rw [hand] at hle
  exact hle

theorem Uvm.uvmclear (h : Uvm L m t n img tf A) (hv : v < n) (hU : img.flags v &&& pteU = pteU)
    (hne : clearU (img.flags v) ≠ pteV) :
    Ensures (fun _ => False) (uvmclear t.label (v * pgSize)) (fun _ m' => ∃ t' : Table 2,
      t'.label = t.label ∧
        Uvm L m' t' n (img.set v (clearU (img.flags v)) (img.page v)) tf A ∧
        SameOutside m m' A) m := by
  have hle := h.le
  have hmax := maxVa_div
  have htf := trapframePage_eq
  have htr := trampolinePage_eq
  have hdiv : v * pgSize / pgSize = v := Nat.mul_div_cancel v (by decide)
  have hfl := h.flags v hv
  obtain ⟨hx, hge⟩ := clearU_eq ((h.and_flags hv (by decide)).trans hU)
  have hfx : img.flags v < 1024 := by
    rw [← hfl, pteFlags_eq]
    omega
  obtain ⟨hf, -⟩ := clearU_eq hU
  rw [pteFlags_eq] at hfl
  have hleaf : Leaf (clearU (t.find 0 v)) := by
    have hvalid := (h.leaf hv).valid
    rw [pteV, Nat.and_one_is_mod] at hvalid
    refine ⟨?_, ?_⟩
    · rw [hx, pteV, Nat.and_one_is_mod]
      omega
    · rw [pteFlags_eq, hx]
      rw [hf] at hne
      omega
  have hpa : pte2pa (clearU (t.find 0 v)) = pte2pa (t.find 0 v) := by
    rw [hx, pte2pa, pte2pa, Nat.shiftRight_eq_div_pow, Nat.shiftRight_eq_div_pow]
    congr 2
    omega
  refine ((uvmclear_spec (v * pgSize) h.space.rep h.space.labels_nodup).weaken ?_).mono ?_
  · rw [hdiv]
    rintro _ (hc | hc)
    · unfold maxVa at hc
      rw [pgSize_eq] at hc
      omega
    · exact absurd (find_of_leaf_none hc) fun h0 => (h.leaf hv).valid (by rw [h0, Nat.zero_and])
  · rw [hdiv]
    rintro _ m' ⟨hrep, hmiss, hlist, hpage⟩
    have hfind : ∀ u < maxVa / pgSize, (t.set v (clearU (t.find 0 v))).find 0 u =
        if u = v then clearU (t.find 0 v) else t.find 0 u := fun u hu =>
      find_set_page (by omega) hu hmiss
    have hfindpa : ∀ u ∈ Multiset.range n,
        pte2pa ((t.set v (clearU (t.find 0 v))).find 0 u) = pte2pa (t.find 0 u) := fun u hu => by
      rw [Multiset.mem_range] at hu
      rw [hfind u (by omega)]
      split_ifs with huv
      · rw [hpa, huv]
      · rfl
    refine ⟨_, Tree.label_set _, ⟨⟨hrep, ?_, h.space.nodup, h.space.ram, fun u hu => ?_⟩,
      fun u hu => ?_, fun u hu => ?_, fun u hu hu' => ?_, fun u hu hu' => ?_, ?_, ?_⟩,
      fun a ha => hpage a fun hm => ha (h.space.mem_of_label hm)⟩
    · rw [hlist, Tree.labels_set, data, Multiset.map_congr rfl hfindpa]
      exact h.space.total
    · rw [Multiset.mem_range] at hu
      refine ⟨by omega, ?_⟩
      rw [hfind u (by omega)]
      split_ifs with huv
      · exact hleaf
      · exact h.leaf hu
    · rw [hfind u (by omega)]
      by_cases huv : u = v
      · rw [if_pos huv, huv, Image.flags_set_self, pteFlags_eq, hx, hf]
        omega
      · rw [if_neg huv, Image.flags_set_of_ne huv]
        exact h.flags u hu
    · rw [hfindpa u (Multiset.mem_range.mpr hu), hpage _ (h.space.data_not_label (mem_data hu)),
        h.page u hu]
      by_cases huv : u = v
      · rw [huv, Image.page_set_self]
      · rw [Image.page_set_of_ne huv]
    · rw [hfind u (by omega), if_neg (by omega)]
      exact h.rest u hu hu'
    · rw [Tree.missing_set]
      exact h.upper u hu hu'
    · rw [hfind _ (by omega), if_neg (by omega)]
      exact h.trapframe
    · rw [hfind _ (by omega), if_neg (by omega)]
      exact h.trampoline

theorem Uvm.copyoutBytes_page (h : Uvm L m t n img tf A) (hv : v < n) (off : ℕ) (hl : l ≠ [])
    (hoff : off + l.length ≤ pgSize)
    (hU : img.flags v &&& pteU ≠ 0) (hW : img.flags v &&& pteW ≠ 0) :
    Ensures (fun _ => False) (copyoutBytes t.label (v * pgSize + off) l) (fun ok m' => ok = true ∧
      Uvm L m' t n (img.write (v * pgSize + off) l) tf A ∧ SameOutside m m' A) m := by
  have hle := h.le
  have hpos : 0 < l.length := List.length_pos_iff.mpr hl
  have hdown : pgRoundDown (v * pgSize + off) = v * pgSize := by
    rw [pgRoundDown]
    rw [pgSize_eq] at *
    omega
  have hva : v * pgSize < maxVa := by
    unfold maxVa
    rw [pgSize_eq]
    omega
  have hdiv : v * pgSize / pgSize = v := Nat.mul_div_cancel v (by decide)
  have hn : min (pgSize - (v * pgSize + off - v * pgSize)) l.length = l.length := by omega
  obtain ⟨p, hp⟩ := leaf_of_find fun h0 : t.find 0 v = 0 => (h.leaf hv).valid (by rw [h0, Nat.zero_and])
  have hpte : m.pte p (px 0 (v * pgSize)) = t.find 0 v := by
    have := h.space.rep.pte_leaf hp
    rwa [← digit_zero_px, hdiv]
  obtain ⟨k, hk⟩ : ∃ k, l.length = k + 1 := ⟨l.length - 1, by omega⟩
  unfold copyoutBytes
  rw [hk, copyoutBytesLoop, if_pos hpos, hdown, if_neg (by omega)]
  refine Ensures.bind_ok (walk_eq h.space.rep hva) ?_
  rw [hdiv, hp]
  simp only [Option.map_some]
  apply ensures_loadPte
  rw [hpte, if_neg]
  · rw [hn, List.take_length, List.drop_length]
    refine Ensures.bind_ok rfl ?_
    have hend : ∀ (m' : Kmem) dst, copyoutBytesLoop t.label k dst [] m' = .ok (true, m') := by
      intro m' dst
      cases k with
      | zero => rfl
      | succ k => rfl
    unfold Ensures
    rw [hend]
    refine ⟨rfl, ?_, fun a ha => Kmem.page_setPage_of_ne fun he => ha ?_⟩
    · rw [Nat.add_sub_cancel_left]
      exact h.store hv off l hoff
    · rw [he]
      exact h.space.mem_of_data (mem_data hv)
  · rw [h.and_flags hv (by decide), h.and_flags hv (by decide), h.and_flags hv (by decide)]
    rintro (hc | hc | hc)
    · exact (h.leaf hv).valid ((h.and_flags hv (by decide)).trans hc)
    · exact hU hc
    · exact hW hc

end Xv6.Vm
