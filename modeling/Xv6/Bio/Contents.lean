import Xv6.Bio.Cache

/-! The contents of blocks as the buffer cache shows them. -/
namespace Xv6.Bio

/-- Valid buffers have the contents `cache`, unless an operation is changing them, and blocks that
are not cached have these contents on the disk. -/
structure Shows (c : Bcache) (dirty : Fin nbuf → Bool) (disk cache : Disk) : Prop where
  content : ∀ i b, c.Names i rootDev b → (c.buf i).valid = true → dirty i = false →
    (c.buf i).data = cache b
  uncached : ∀ b, (∀ i, c.Names i rootDev b → (c.buf i).valid = false) → cache b = disk b

namespace Shows

variable {c c' : Bcache} {dirty : Fin nbuf → Bool} {disk cache : Disk} {i : Fin nbuf} {b : ℕ}

theorem recount (h : Shows c dirty disk cache) (hc : c.Recounts c') : Shows c' dirty disk cache := by
  constructor
  · intro j b hn hv hd
    obtain ⟨r, hr⟩ := hc j
    rw [hc.names] at hn
    rw [hr] at hv ⊢
    exact h.content j b hn hv hd
  · intro b hb
    apply h.uncached b
    intro j hj
    obtain ⟨r, hr⟩ := hc j
    have := hb j (hc.names.mpr hj)
    rwa [hr] at this

theorem recycle (h : Shows c dirty disk cache)
    (hold : ∀ x, c.Names i rootDev x → cache x = disk x) :
    Shows (c.set i { c.buf i with dev := rootDev, blockno := b, valid := false, refcnt := 1 })
      dirty disk cache := by
  constructor
  · intro j x hj hv hd
    by_cases hji : j = i
    · subst hji
      simp at hv
    · simp only [Bcache.Names, Bcache.set_buf, Function.update_of_ne hji] at hj hv ⊢
      exact h.content j x hj hv hd
  · intro x hx
    by_cases hxi : c.Names i rootDev x
    · exact hold x hxi
    · apply h.uncached x
      intro j hj
      have hji : j ≠ i := by
        rintro rfl
        exact hxi hj
      have := hx j (by simpa [Bcache.Names, hji] using hj)
      simpa [hji] using this

theorem fill (h : Shows c dirty disk cache) (hu : ∀ j, c.Names j rootDev b → j = i)
    (hn : c.Names i rootDev b) (hv : (c.buf i).valid = false) :
    Shows (c.set i { c.buf i with valid := true, data := disk b }) dirty disk cache := by
  have hb : cache b = disk b := by
    apply h.uncached b
    intro j hj
    rw [hu j hj, hv]
  constructor
  · intro j x hj hvj hd
    by_cases hji : j = i
    · subst hji
      have hxb : x = b := by
        simp only [Bcache.Names, Bcache.set_buf, Function.update_self] at hj
        exact hj.2.symm.trans hn.2
      simp [hxb, hb]
    · simp only [Bcache.Names, Bcache.set_buf, Function.update_of_ne hji] at hj hvj ⊢
      exact h.content j x hj hvj hd
  · intro x hx
    apply h.uncached x
    intro j hj
    by_cases hji : j = i
    · rw [hji, hv]
    · have := hx j (by simpa [Bcache.Names, hji] using hj)
      simpa [hji] using this

theorem store (h : Shows c dirty disk cache) (d : Block) :
    Shows (c.set i { c.buf i with data := d }) (Function.update dirty i true) disk cache := by
  constructor
  · intro j x hj hv hd
    have hji : j ≠ i := by
      rintro rfl
      simp at hd
    simp only [Bcache.Names, Bcache.set_buf, Function.update_of_ne hji] at hj hv hd ⊢
    exact h.content j x hj hv hd
  · intro x hx
    apply h.uncached x
    intro j hj
    by_cases hji : j = i
    · subst hji
      simpa using hx j (by simpa [Bcache.Names] using hj)
    · simpa [hji] using hx j (by simpa [Bcache.Names, hji] using hj)

theorem set (h : Shows c dirty disk cache) (hu : ∀ j, c.Names j rootDev b → j = i)
    (hn : c.Names i rootDev b) (hv : (c.buf i).valid = true) (d : Block) :
    Shows (c.set i { c.buf i with data := d }) dirty disk (Function.update cache b d) := by
  constructor
  · intro j x hj hvj hd
    by_cases hji : j = i
    · subst hji
      have hxb : x = b := by
        simp only [Bcache.Names, Bcache.set_buf, Function.update_self] at hj
        exact hj.2.symm.trans hn.2
      simp [hxb]
    · simp only [Bcache.Names, Bcache.set_buf, Function.update_of_ne hji] at hj hvj ⊢
      have hxb : x ≠ b := fun e => hji (hu j (e ▸ hj))
      rw [Function.update_of_ne hxb]
      exact h.content j x hj hvj hd
  · intro x hx
    have hxb : x ≠ b := by
      rintro rfl
      have := hx i (by simpa [Bcache.Names] using hn)
      simp [hv] at this
    rw [Function.update_of_ne hxb]
    apply h.uncached x
    intro j hj
    by_cases hji : j = i
    · subst hji
      simpa using hx j (by simpa [Bcache.Names] using hj)
    · simpa [hji] using hx j (by simpa [Bcache.Names, hji] using hj)

theorem record (h : Shows c dirty disk cache) (hu : ∀ j, c.Names j rootDev b → j = i)
    (hn : c.Names i rootDev b) (hv : (c.buf i).valid = true) :
    Shows c (Function.update dirty i false) disk (Function.update cache b (c.buf i).data) := by
  constructor
  · intro j x hj hvj hd
    by_cases hji : j = i
    · subst hji
      rw [hj.2.symm.trans hn.2, Function.update_self]
    · have hxb : x ≠ b := fun e => hji (hu j (e ▸ hj))
      rw [Function.update_of_ne hxb]
      exact h.content j x hj hvj (by rwa [Function.update_of_ne hji] at hd)
  · intro x hx
    have hxb : x ≠ b := by
      rintro rfl
      rw [hx i hn] at hv
      exact absurd hv (by decide)
    rw [Function.update_of_ne hxb]
    exact h.uncached x hx

theorem bwrite (h : Shows c dirty disk cache) (hn : c.Names i rootDev b)
    (hv : (c.buf i).valid = true) (d : Block) :
    Shows c dirty (Function.update disk b d) cache := by
  refine ⟨h.content, fun x hx => ?_⟩
  have hxb : x ≠ b := by
    rintro rfl
    rw [hx i hn] at hv
    exact absurd hv (by decide)
  rw [Function.update_of_ne hxb]
  exact h.uncached x hx

theorem release (h : Shows c dirty disk cache) (hd : dirty i = false) :
    Shows c (Function.update dirty i false) disk cache := by
  rwa [← hd, Function.update_eq_self]

end Shows

end Xv6.Bio
