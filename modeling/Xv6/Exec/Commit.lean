import Xv6.Exec.Args

/-! `exec` as a whole: it replaces the address space by the one that the file and the arguments
describe, or leaves everything as it was. -/
namespace Xv6.Exec

open Lib Vm Proc

def blank : Image := ⟨fun _ => 0, fun _ _ => 0⟩

/-- The size and the image before the stack is added. -/
def program (c : List UInt8) : Option (ℕ × Image) :=
  let bytes := Fs.flatRead c 0 elfhdrSize
  let elf := Elfhdr.ofBytes bytes
  if bytes.length ≠ elfhdrSize ∨ elf.magic ≠ elfMagic then none
  else loadImage c elf.phnum (elf.phoff % 2 ^ 32) 0 blank

def withStack (sz : ℕ) (img : Image) : Image :=
  (img.fill (numPages sz) pteW).set (numPages sz)
    (clearU ((img.fill (numPages sz) pteW).flags (numPages sz)))
    ((img.fill (numPages sz) pteW).page (numPages sz))

def stackTop (sz : ℕ) : ℕ := (numPages sz + 2) * pgSize

def fsCalls (fs : Files) (path : Str) : List FsCall :=
  match fs.namei path with
  | none => [.beginOp, .endOp]
  | some ip => [.beginOp, .ilock ip, .iunlockput ip, .endOp]

/-- The process has an address space, which has the pages `A` together with the free list; its
trapframe is somewhere else. -/
structure Ready (L : Layout) (s : State) (t : Radix.Tree fanout ℕ 2) (img : Image) (A : Multiset ℕ) :
    Prop where
  uvm : Uvm L s.kmem t (numPages s.proc.sz) img s.proc.trapframe A
  label : t.label = s.proc.pagetable
  trapframe_ram : L.Ram s.proc.trapframe
  trapframe_notMem : s.proc.trapframe ∉ A

structure Accepts (fs : Files) (path : Str) (argv : List Str) (m : Kmem) (ip : ℕ) (x : ℕ × Image) :
    Prop where
  found : fs.namei path = some ip
  program : program (fs.content ip) = some x
  fits : argBytes argv ≤ pgSize
  supplies : m.Supplies (3 + imagePages (numPages x.1 + 2))

/-- The process is as it was, and so is memory but for the contents of free pages. -/
structure Unchanged (s s' : State) : Prop where
  proc : s'.proc = s.proc
  outside : SameOutside s.kmem s'.kmem s.kmem.freelist
  freelist : (s'.kmem.freelist : Multiset ℕ) = s.kmem.freelist

/-- The process runs the program from `entry` on: the image is `img` with the arguments, and the old
address space `t` is free. -/
structure Replaced (L : Layout) (path : Str) (argv : List Str) (entry sz : ℕ) (img : Image)
    (t : Radix.Tree fanout ℕ 2) (A : Multiset ℕ) (s s' : State) : Prop where
  space : ∃ t' : Radix.Tree fanout ℕ 2,
    s'.proc = { s.proc with
      name := safestrcpy s.proc.name (lastElement path path), pagetable := t'.label,
      sz := stackTop sz } ∧
    Uvm L s'.kmem t' (numPages sz + 2) (pushedArgs (withStack sz img) (stackTop sz) argv)
      s.proc.trapframe A
  freed : ∀ a ∈ t.labels + data t (Multiset.range (numPages s.proc.sz)), a ∈ s'.kmem.freelist
  trapframe : s'.kmem.page s.proc.trapframe =
    (((s.kmem.page s.proc.trapframe).setLE tfA1 8 (stackTop sz - argBytes argv)).setLE tfEpc 8
      entry).setLE tfSp 8 (stackTop sz - argBytes argv)
  outside : ∀ a ∉ A, a ≠ s.proc.trapframe → s'.kmem.page a = s.kmem.page a

variable {L : Layout} {fs : Files} {path : Str} {argv : List Str} {s s' : State}
  {t t' : Radix.Tree fanout ℕ 2} {img img' : Image} {A F : Multiset ℕ} {m m' : Kmem}
  {n sz tf entry : ℕ} {ps : List ℕ} {α β : Type} {E : String → Prop}

theorem ensures_kern_last {x : Kern α} {Q : α → Kmem → Prop} {R : α → State → Prop}
    (hx : Ensures E x Q s.kmem) (hr : ∀ a m', Q a m' → R a { s with kmem := m' }) :
    Ensures E (kern x) R s := by
  unfold Ensures kern at *
  cases hx' : x s.kmem with
  | error e =>
    rw [hx'] at hx
    exact hx
  | ok r =>
    rw [hx'] at hx
    exact hr r.1 r.2 hx

theorem ensures_kern {x : Kern α} {f : α → Sys β} {Q : α → Kmem → Prop} {R : β → State → Prop}
    (hx : Ensures E x Q s.kmem) (hf : ∀ a m', Q a m' → Ensures E (f a) R { s with kmem := m' }) :
    Ensures E (kern x >>= f) R s :=
  (ensures_kern_last hx hf).bind fun _ _ h => h

theorem ensures_call {c : FsCall} {f : Unit → Sys β} {R : β → State → Prop}
    (h : Ensures E (f ()) R { s with calls := s.calls ++ [c] }) : Ensures E (call c >>= f) R s :=
  Ensures.bind_ok rfl h

theorem uvm_rebase (h : Uvm L m t n img tf A)
    (hpage : ∀ a ∈ t.labels + data t (Multiset.range n), m'.page a = m.page a)
    (htotal : (m'.freelist : Multiset ℕ) + t.labels + data t (Multiset.range n) = F)
    (hnd : F.Nodup) (hram : ∀ a ∈ F, L.Ram a) : Uvm L m' t n img tf F := by
  refine ⟨⟨h.space.rep.frame fun a ha => hpage a (Multiset.mem_add.mpr (Or.inl ha)), htotal, hnd, hram,
    h.space.user⟩, h.flags, fun v hv => ?_, h.rest, h.upper, h.trapframe, h.trampoline⟩
  rw [hpage _ (Multiset.mem_add.mpr (Or.inr (Uvm.mem_data hv)))]
  exact h.page v hv

theorem label_ne_zero (h : Uvm L m t n img tf A) : t.label ≠ 0 :=
  (h.space.ram _ (h.space.mem_of_label (Radix.Tree.label_mem_labels t))).pos.ne'

def badCalls : Option ℕ → List FsCall
  | none => []
  | some ip => [.iunlockput ip, .endOp]

/-- The cleanup gives all pages of the new address space back. -/
theorem bad_spec (ip : Option ℕ) (h : Uvm L s.kmem t (numPages sz) img tf F) :
    Ensures (fun _ => False) (bad L ip t.label sz) (fun r s' => r = none ∧ s'.proc = s.proc ∧
      (s'.kmem.freelist : Multiset ℕ) = F ∧ SameOutside s.kmem s'.kmem F ∧
      s'.calls = s.calls ++ badCalls ip) s := by
  unfold bad
  rw [if_pos (label_ne_zero h)]
  refine ensures_kern (procFreepagetable_spec h) ?_
  rintro _ m' ⟨hfl, hout⟩
  cases ip with
  | none => exact ⟨rfl, rfl, hfl, hout, (List.append_nil _).symm⟩
  | some ip =>
    apply ensures_call
    apply ensures_call
    refine ⟨rfl, rfl, hfl, hout, ?_⟩
    rw [badCalls, List.append_assoc]
    rfl

theorem bad_zero (ip : ℕ) : Ensures E (bad L (some ip) 0 0) (fun r s' => r = none ∧
    s'.proc = s.proc ∧ s'.kmem = s.kmem ∧ s'.calls = s.calls ++ badCalls (some ip)) s := by
  unfold bad
  rw [if_neg (not_not.mpr rfl)]
  apply ensures_call
  apply ensures_call
  refine ⟨rfl, rfl, rfl, ?_⟩
  rw [badCalls, List.append_assoc]
  rfl

/-- The new address space has its pages from the free list of the state before, and those of the old
one are elsewhere. -/
theorem Ready.apart {s₀ : State} (h : Ready L s₀ t img A)
    (hnew : Uvm L m t' n img' tf s₀.kmem.freelist) :
    (m.freelist : Multiset ℕ) + t.labels + data t (Multiset.range (numPages s₀.proc.sz)) +
      (t'.labels + data t' (Multiset.range n)) = A := by
  rw [← h.uvm.space.total, ← hnew.space.total]
  abel

theorem setTrapframe_spec (tf off x : ℕ) : Ensures E (setTrapframe tf off x) (fun _ m' =>
    m'.freelist = m.freelist ∧ m'.page tf = (m.page tf).setLE off 8 x ∧
      ∀ a ≠ tf, m'.page a = m.page a) m :=
  ⟨rfl, Kmem.page_setPage_self, fun _ ha => Kmem.page_setPage_of_ne ha⟩

/-- The new image takes the place of the old one, whose pages are free. -/
theorem commit_spec {s₀ : State} {sp : ℕ} (h : Ready L s₀ t img A) (hproc : s.proc = s₀.proc)
    (hnew : Uvm L s.kmem t' n img' s₀.proc.trapframe s₀.kmem.freelist)
    (hout : SameOutside s₀.kmem s.kmem s₀.kmem.freelist) :
    Ensures (fun _ => False) (commit L path entry t'.label sz sp) (fun _ s' =>
      s'.calls = s.calls ∧
      s'.proc = { s₀.proc with
        name := safestrcpy s₀.proc.name (lastElement path path), pagetable := t'.label, sz := sz } ∧
      Uvm L s'.kmem t' n img' s₀.proc.trapframe A ∧
      (∀ a ∈ t.labels + data t (Multiset.range (numPages s₀.proc.sz)), a ∈ s'.kmem.freelist) ∧
      s'.kmem.page s₀.proc.trapframe =
        (((s₀.kmem.page s₀.proc.trapframe).setLE tfA1 8 sp).setLE tfEpc 8 entry).setLE tfSp 8 sp ∧
      ∀ a ∉ A, a ≠ s₀.proc.trapframe → s'.kmem.page a = s₀.kmem.page a) s := by
  set tf := s₀.proc.trapframe with htf
  have htfA : tf ∉ A := h.trapframe_notMem
  have htotal := h.apart hnew
  have hnd := h.uvm.space.nodup
  rw [← htotal] at hnd
  obtain ⟨hndold, -, hdisj⟩ := Multiset.nodup_add.mp hnd
  set old := t.labels + data t (Multiset.range (numPages s₀.proc.sz)) with hold
  set O := (s.kmem.freelist : Multiset ℕ) + t.labels + data t (Multiset.range (numPages s₀.proc.sz))
    with hO
  have hOmem : ∀ a ∈ old, a ∈ O := fun a ha => by
    rw [hO, add_assoc]
    exact Multiset.mem_add.mpr (Or.inr ha)
  have hOA : ∀ a ∈ O, a ∈ A := fun a ha => by
    rw [← htotal]
    exact Multiset.mem_add.mpr (Or.inl ha)
  have hfree : ∀ a ∈ old, a ∉ (s₀.kmem.freelist : Multiset ℕ) := fun a ha hf => by
    have hnd' := h.uvm.space.nodup
    rw [← h.uvm.space.total, add_assoc] at hnd'
    exact Multiset.disjoint_left.mp (Multiset.nodup_add.mp hnd').2.2 hf ha
  have htfF : tf ∉ (s₀.kmem.freelist : Multiset ℕ) := fun hf => htfA (h.uvm.space.mem_of_free hf)
  unfold commit
  refine Ensures.bind_ok rfl ?_
  rw [hproc, ← htf]
  refine ensures_kern (setTrapframe_spec tf tfA1 sp) ?_
  rintro _ m₁ ⟨hfl₁, hpg₁, hsame₁⟩
  refine Ensures.bind_ok rfl ?_
  refine ensures_kern (setTrapframe_spec tf tfEpc entry) ?_
  rintro _ m₂ ⟨hfl₂, hpg₂, hsame₂⟩
  refine ensures_kern (setTrapframe_spec tf tfSp sp) ?_
  rintro _ m₃ ⟨hfl₃, hpg₃, hsame₃⟩
  have hfl : m₃.freelist = s.kmem.freelist := (hfl₃.trans hfl₂).trans hfl₁
  have hsame : ∀ a, a ≠ tf → m₃.page a = s.kmem.page a := fun a ha =>
    ((hsame₃ a ha).trans (hsame₂ a ha)).trans (hsame₁ a ha)
  -- the old address space is still there, and is freed
  have huold : Uvm L m₃ t (numPages s₀.proc.sz) img tf O := by
    refine uvm_rebase h.uvm (fun a ha => ?_) (by rw [hfl]) hndold fun a ha =>
      h.uvm.space.ram a (hOA a ha)
    rw [hsame a fun he => htfA (he ▸ hOA a (hOmem a ha)), hout a (hfree a ha)]
  rw [← h.label]
  refine ensures_kern_last (procFreepagetable_spec huold) ?_
  rintro _ m₄ ⟨hfl₄, hout₄⟩
  have hnew' : ∀ a ∈ t'.labels + data t' (Multiset.range n), a ∈ (s₀.kmem.freelist : Multiset ℕ) :=
    fun a ha => by
      rw [← hnew.space.total, add_assoc]
      exact Multiset.mem_add.mpr (Or.inr ha)
  refine ⟨rfl, rfl, ?_, fun a ha => ?_, ?_, fun a ha hne => ?_⟩
  · refine uvm_rebase hnew (fun a ha => ?_) ?_ h.uvm.space.nodup h.uvm.space.ram
    · show m₄.page a = s.kmem.page a
      rw [hout₄ a fun hm => Multiset.disjoint_left.mp hdisj hm ha,
        hsame a fun he => htfF (he ▸ hnew' a ha)]
    · show (m₄.freelist : Multiset ℕ) + t'.labels + data t' (Multiset.range n) = A
      rw [hfl₄, add_assoc, htotal]
  · show a ∈ m₄.freelist
    rw [← Multiset.mem_coe, hfl₄]
    exact hOmem a ha
  · show m₄.page tf = _
    rw [hout₄ tf fun hm => htfA (hOA tf hm), hpg₃, hpg₂, hpg₁, hout tf htfF]
  · show m₄.page a = s₀.kmem.page a
    rw [hout₄ a fun hm => ha (hOA a hm), hsame a hne,
      hout a fun hm => ha (h.uvm.space.mem_of_free hm)]

end Xv6.Exec
