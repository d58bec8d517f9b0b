import Xv6.Exec.Load

/-! The loop over the program headers makes the image that the file describes, if there are enough
pages. -/
namespace Xv6.Exec

open Lib Vm Proc

/-- The size and the image after `k` program headers from `off` on. -/
def loadImage (c : List UInt8) : ℕ → ℕ → ℕ → Image → Option (ℕ × Image)
  | 0, _, sz, img => some (sz, img)
  | k + 1, off, sz, img =>
    let bytes := Fs.flatRead c off proghdrSize
    let ph := Proghdr.ofBytes bytes
    if bytes.length ≠ proghdrSize then none
    else if ph.type ≠ elfProgLoad then loadImage c k ((off + proghdrSize) % 2 ^ 32) sz img
    else if ph.memsz < ph.filesz ∨ 2 ^ 64 ≤ ph.vaddr + ph.memsz ∨ ph.vaddr % pgSize ≠ 0 ∨
        max sz (ph.vaddr + ph.memsz) = 0 then none
    else
      (fileBytes c (ph.off % 2 ^ 32) ph.filesz).bind fun b =>
        loadImage c k ((off + proghdrSize) % 2 ^ 32) (max sz (ph.vaddr + ph.memsz))
          ((img.fill (numPages sz) (flags2perm ph.flags)).write ph.vaddr b)

variable {L : Layout} {m m' : Kmem} {t t' : Radix.Tree fanout ℕ 2} {img img' : Image} {A : Multiset ℕ}
  {c : List UInt8} {sz n tf off k xperm : ℕ}

theorem field_lt (l : List UInt8) (off w : ℕ) : field l off w < 256 ^ w := by
  refine (leValue_lt _).trans_le (Nat.pow_le_pow_right (by decide) ?_)
  rw [List.length_take]
  exact Nat.min_le_left _ _

theorem flags2perm_lt (flags : ℕ) : flags2perm flags < 1024 := by
  unfold flags2perm
  split_ifs <;> decide

theorem Proghdr.vaddr_lt (l : List UInt8) : (ofBytes l).vaddr < 2 ^ 64 := field_lt l 16 8

theorem Proghdr.memsz_lt (l : List UInt8) : (ofBytes l).memsz < 2 ^ 64 := field_lt l 40 8

theorem le_numPages_mul (sz : ℕ) : sz ≤ numPages sz * pgSize := by
  rw [numPages, pgSize_eq]
  omega

theorem loadImage_le {x : ℕ × Image} (h : loadImage c k off sz img = some x) : sz ≤ x.1 := by
  induction k generalizing off sz img with
  | zero =>
    rw [loadImage, Option.some.injEq] at h
    rw [← h]
  | succ k ih =>
    simp only [loadImage] at h
    split_ifs at h
    · exact ih h
    · obtain ⟨b, -, h⟩ := Option.bind_eq_some_iff.mp h
      exact (Nat.le_max_left _ _).trans (ih h)

theorem AllUser.fill (h : AllUser img n) (xperm k : ℕ) : AllUser (img.fill n xperm) k := by
  intro v _
  by_cases hv : v < n
  · show (if v < n then _ else _) &&& pteU ≠ 0
    rw [if_pos hv]
    exact h v hv
  · show (if v < n then _ else _) &&& pteU ≠ 0
    rw [if_neg hv, Nat.and_or_distrib_right, Nat.and_or_distrib_right]
    intro h0
    exact absurd (Nat.or_eq_zero_iff.mp (Nat.or_eq_zero_iff.mp h0).1).1 (by decide)

/-- What the loop over the program headers does; `spec` is the image that they describe. -/
structure HeadersLoaded (L : Layout) (m m' : Kmem) (t : Radix.Tree fanout ℕ 2) (sz tf : ℕ)
    (A : Multiset ℕ) (spec : Option (ℕ × Image)) (r : Bool × ℕ) : Prop where
  outside : SameOutside m m' A
  uvm : ∃ t' : Radix.Tree fanout ℕ 2, ∃ img', t'.label = t.label ∧ Uvm L m' t' (numPages r.2) img' tf A
  done : r.1 = true → ∃ t' : Radix.Tree fanout ℕ 2, ∃ img', t'.label = t.label ∧
    spec = some (r.2, img') ∧ Uvm L m' t' (numPages r.2) img' tf A ∧ Dense t' (numPages r.2) ∧
    ∃ ps, Took m m' ps true ∧ imagePages (numPages sz) + ps.length = imagePages (numPages r.2)
  failed : r.1 = false → ∀ x, spec = some x →
    ∀ j, imagePages (numPages x.1) ≤ imagePages (numPages sz) + j → ¬m.Supplies j

theorem HeadersLoaded.bad (sz₀ : ℕ) (h : Uvm L m' t' (numPages sz) img tf A)
    (ht : t'.label = t.label) (hout : SameOutside m m' A) : HeadersLoaded L m m' t sz₀ tf A none (false, sz) :=
  ⟨hout, ⟨t', img, ht, h⟩, fun h => (by cases h), fun _ _ h => (by cases h)⟩

theorem HeadersLoaded.cons {m₁ : Kmem} {sz₁ : ℕ} {spec : Option (ℕ × Image)} {r : Bool × ℕ}
    {ps : List ℕ} (h : HeadersLoaded L m₁ m' t' sz₁ tf A spec r) (ht : t'.label = t.label)
    (hout : SameOutside m m₁ A) (htook : Took m m₁ ps true)
    (hlen : imagePages (numPages sz) + ps.length = imagePages (numPages sz₁)) :
    HeadersLoaded L m m' t sz tf A spec r := by
  refine ⟨hout.trans h.outside, ?_, fun hok => ?_, fun hok x hx j hj hsup => ?_⟩
  · obtain ⟨t'', img', hl, hu⟩ := h.uvm
    exact ⟨t'', img', hl.trans ht, hu⟩
  · obtain ⟨t'', img', hl, hspec, hu, hd, qs, hq, hlen'⟩ := h.done hok
    refine ⟨t'', img', hl.trans ht, hspec, hu, hd, ps ++ qs, htook.trans hq, ?_⟩
    rw [List.length_append]
    omega
  · exact h.failed hok x hx _ (by omega) (hsup.after htook)

/-- The loop over the program headers loads the segments that pass the checks. -/
theorem loadLoop_spec (off : ℕ) (h : Uvm L m t (numPages sz) img tf A) (hd : Dense t (numPages sz))
    (hU : AllUser img (numPages sz)) (hc : c.length < 2 ^ 32) :
    Ensures (fun _ => False) (loadLoop L c t.label k off sz) (fun r m' =>
      HeadersLoaded L m m' t sz tf A (loadImage c k off sz img) r) m := by
  induction k generalizing m t off sz img with
  | zero =>
    exact ⟨SameOutside.refl m A, ⟨t, img, rfl, h⟩,
      fun _ => ⟨t, img, rfl, rfl, h, hd, [], Took.refl m, rfl⟩, fun h => (by cases h)⟩
  | succ k ih =>
    have hbad := HeadersLoaded.bad sz h rfl (SameOutside.refl m A)
    rw [loadLoop, loadImage]
    generalize hb : Fs.flatRead c off proghdrSize = bytes
    have hva := Proghdr.vaddr_lt bytes
    have hms := Proghdr.memsz_lt bytes
    generalize Proghdr.ofBytes bytes = ph at *
    by_cases hread : bytes.length ≠ proghdrSize
    · rw [if_pos hread, if_pos hread]
      exact hbad
    rw [if_neg hread, if_neg hread]
    by_cases htype : ph.type ≠ elfProgLoad
    · rw [if_pos htype, if_pos htype]
      exact ih _ h hd hU
    rw [if_neg htype, if_neg htype]
    by_cases hsmall : ph.memsz < ph.filesz
    · rw [if_pos hsmall, if_pos (Or.inl hsmall)]
      exact hbad
    rw [if_neg hsmall]
    by_cases hover : (ph.vaddr + ph.memsz) % 2 ^ 64 < ph.vaddr
    · rw [if_pos hover, if_pos (Or.inr (Or.inl (by omega)))]
      exact hbad
    rw [if_neg hover]
    by_cases halign : ph.vaddr % pgSize ≠ 0
    · rw [if_pos halign, if_pos (Or.inr (Or.inr (Or.inl halign)))]
      exact hbad
    have hsum : (ph.vaddr + ph.memsz) % 2 ^ 64 = ph.vaddr + ph.memsz := by omega
    rw [if_neg halign, hsum]
    refine (uvmalloc_spec (ph.vaddr + ph.memsz) h (flags2perm_lt ph.flags)).bind ?_
    rintro r m₁ (⟨rfl, hout, t₁, ⟨hl₁, -⟩, hu₁, ps, htook, hdense⟩ |
        ⟨rfl, -, hout, t₁, ⟨hl₁, -⟩, hu₁, hsup⟩)
    · obtain ⟨hd₁, hlen⟩ := hdense hd
      by_cases hzero : max sz (ph.vaddr + ph.memsz) = 0
      · rw [if_pos hzero, if_pos (Or.inr (Or.inr (Or.inr hzero)))]
        rw [hzero, show 0 = sz by omega] at hu₁
        exact HeadersLoaded.bad sz hu₁ hl₁ hout
      have hle := le_numPages_mul (max sz (ph.vaddr + ph.memsz))
      have hsz := hu₁.sz_le
      have hfilesz : ph.filesz % 2 ^ 32 = ph.filesz := by
        rw [pgSize_eq] at hsz
        omega
      rw [if_neg hzero, if_neg (by omega), hfilesz, ← hl₁]
      refine (loadseg_spec hu₁ (hU.fill _ _) (not_not.mp halign) (by omega)
        (Nat.mod_lt _ (by decide)) hc).bind ?_
      rintro ok m₂ hs
      cases ok with
      | false =>
        obtain ⟨img₂, hu₂, -⟩ := hs.uvm
        rw [hs.failed rfl, Option.bind_none]
        exact HeadersLoaded.bad sz hu₂ hl₁ (hout.trans hs.outside)
      | true =>
        obtain ⟨b, hbytes, hu₂⟩ := hs.done rfl
        have hrest := ih ((off + proghdrSize) % 2 ^ 32) hu₂ hd₁ (hU.fill _ _)
        rw [hbytes, Option.bind_some]
        refine hrest.mono fun r m' hr => hr.cons hl₁ (hout.trans hs.outside) (htook.trans hs.took) ?_
        rw [List.append_nil]
        exact hlen
    · rw [if_pos rfl]
      refine ⟨hout, ⟨t₁, img, hl₁, hu₁⟩, fun h => (by cases h), fun _ x hx j hj => hsup hd j ?_⟩
      have hx' : max sz (ph.vaddr + ph.memsz) ≤ x.1 := by
        split_ifs at hx
        obtain ⟨b, -, hx⟩ := Option.bind_eq_some_iff.mp hx
        exact loadImage_le hx
      exact (imagePages_mono (numPages_mono hx')).trans hj

end Xv6.Exec
