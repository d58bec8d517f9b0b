import Xv6.Exec.Commit

/-! `exec` succeeds exactly if the file is good, the arguments fit and there are enough pages; in all
other cases nothing has changed. -/
namespace Xv6.Exec

open Lib Vm Proc

variable {L : Layout} {path : Str} {argv : List Str} {s s₀ : State}
  {t t' : Radix.Tree fanout ℕ 2} {img img' : Image} {A : Multiset ℕ} {m : Kmem}
  {sz tf entry ip : ℕ} {ps : List ℕ}

theorem bad_unchanged (s₀ : State) (ip : Option ℕ) (hproc : s.proc = s₀.proc)
    (hnew : Uvm L s.kmem t' (numPages sz) img' tf s₀.kmem.freelist)
    (hout : SameOutside s₀.kmem s.kmem s₀.kmem.freelist) :
    Ensures (fun _ => False) (bad L ip t'.label sz) (fun r s' => r = none ∧ Unchanged s₀ s' ∧
      s'.calls = s.calls ++ badCalls ip) s := by
  refine (bad_spec ip hnew).mono ?_
  rintro r s' ⟨hr, hproc', hfl, hout', hcalls⟩
  exact ⟨hr, ⟨hproc'.trans hproc, hout.trans hout', hfl⟩, hcalls⟩

theorem stackPage_withStack (h : Uvm L m t (numPages sz + 2) (withStack sz img) tf A) :
    StackPage L m t (numPages sz + 2) (withStack sz img) tf A := by
  have hflags : (withStack sz img).flags (numPages sz + 2 - 1) = pteR ||| pteU ||| pteW ||| pteV := by
    rw [withStack, Image.flags_set_of_ne (by omega)]
    exact if_neg (by omega)
  refine ⟨h, by omega, ?_, ?_⟩
  · rw [hflags]
    decide
  · rw [hflags]
    decide

/-- From the stack on, `exec` fails without a trace or replaces the image. -/
theorem execStack_spec (h : Ready L s₀ t img A) (hproc : s.proc = s₀.proc)
    (hnew : Uvm L s.kmem t' (numPages sz) img' s₀.proc.trapframe s₀.kmem.freelist)
    (hd : Dense t' (numPages sz)) (htook : Took s₀.kmem s.kmem ps true)
    (hlen : ps.length = 3 + imagePages (numPages sz))
    (hout : SameOutside s₀.kmem s.kmem s₀.kmem.freelist) (hshort : ∀ s ∈ argv, s.length < pgSize)
    (hfew : argv.length < maxArg) :
    Ensures (fun _ => False) (execStack L path argv entry t'.label sz) (fun r s' =>
      s'.calls = s.calls ∧
        match r with
        | none => Unchanged s₀ s' ∧ ¬(argBytes argv ≤ pgSize ∧
            s₀.kmem.Supplies (3 + imagePages (numPages sz + 2)))
        | some argc => argc = argv.length ∧ argBytes argv ≤ pgSize ∧
            s₀.kmem.Supplies (3 + imagePages (numPages sz + 2)) ∧
            Replaced L path argv entry sz img' t A s₀ s') s := by
  have hle := hnew.le
  have hround : pgRoundUp sz = numPages sz * pgSize := pgRoundUp_eq (by
    have := hnew.sz_le
    rw [pgSize_eq] at *
    omega)
  have hsum : (numPages sz * pgSize + 2 * pgSize) % 2 ^ 64 = (numPages sz + 2) * pgSize := by
    rw [pgSize_eq]
    omega
  have hmax : max (numPages sz * pgSize) ((numPages sz + 2) * pgSize) = (numPages sz + 2) * pgSize :=
    Nat.max_eq_right (Nat.mul_le_mul_right _ (by omega))
  have halloc := uvmalloc_spec ((numPages sz + 2) * pgSize) ((numPages_mul (numPages sz)).symm ▸ hnew)
    (show pteW < 1024 by decide)
  rw [hmax, numPages_mul, numPages_mul] at halloc
  unfold execStack
  rw [hround]
  dsimp only
  rw [hsum]
  refine ensures_kern halloc ?_
  rintro r m₁ (⟨hr, hout₁, t₁, ⟨hl₁, -⟩, hu₁, qs, hq, hcount⟩ |
      ⟨hr, -, hout₁, t₁, ⟨hl₁, -⟩, hu₁, hsup⟩)
  swap
  · rw [if_pos hr, ← hl₁]
    have hu₁' : Uvm L m₁ t₁ (numPages (numPages sz * pgSize)) img' s₀.proc.trapframe
        s₀.kmem.freelist := by
      rw [numPages_mul]
      exact hu₁
    refine (bad_unchanged (s := { s with kmem := m₁ }) s₀ none hproc hu₁' (hout.trans hout₁)).mono ?_
    rintro _ s' ⟨rfl, hun, hcalls⟩
    refine ⟨by simpa [badCalls] using hcalls, hun, fun hc => hsup hd _ ?_ (hc.2.after htook)⟩
    omega
  obtain ⟨-, hcount⟩ := hcount hd
  have hsupply : s₀.kmem.Supplies (3 + imagePages (numPages sz + 2)) := by
    have := (htook.trans hq).supplies
    rwa [List.length_append, hlen, Nat.add_assoc, hcount] at this
  have hguard : (numPages sz + 2) * pgSize - 2 * pgSize = numPages sz * pgSize := by
    rw [← Nat.sub_mul, Nat.add_sub_cancel]
  have hbase : (numPages sz + 2) * pgSize - pgSize = (numPages sz + 2 - 1) * pgSize := by
    rw [Nat.sub_mul, Nat.one_mul]
  have hflags : (img'.fill (numPages sz) pteW).flags (numPages sz) =
      pteR ||| pteU ||| pteW ||| pteV := if_neg (by omega)
  have hclear := hu₁.uvmclear (v := numPages sz) (by omega) (by rw [hflags]; decide)
    (by rw [hflags]; decide)
  rw [hr, if_neg (by rw [pgSize_eq]; omega), hguard, hbase, ← hl₁]
  refine ensures_kern hclear ?_
  rintro _ m₂ ⟨t₂, hl₂, hu₂, hout₂⟩
  rw [← hl₂]
  refine ensures_kern (pushArgs_spec (stackPage_withStack hu₂) hshort hfew) ?_
  rintro (_ | sp) m₃ ⟨hout₃, hargs⟩
  · obtain ⟨hbig, img₃, hu₃⟩ := hargs
    have hu₃' : Uvm L m₃ t₂ (numPages ((numPages sz + 2) * pgSize)) img₃ s₀.proc.trapframe
        s₀.kmem.freelist := by
      rw [numPages_mul]
      exact hu₃
    refine (bad_unchanged (s := { s with kmem := m₃ }) s₀ none hproc hu₃'
      (((hout.trans hout₁).trans hout₂).trans hout₃)).mono ?_
    rintro _ s' ⟨rfl, hun, hcalls⟩
    exact ⟨by simpa [badCalls] using hcalls, hun, fun hc => absurd hc.1 (by omega)⟩
  · obtain ⟨hfit, rfl, hu₃⟩ := hargs
    refine (commit_spec (s := { s with kmem := m₃ }) h hproc hu₃
      (((hout.trans hout₁).trans hout₂).trans hout₃)).bind ?_
    rintro _ s' ⟨hcalls, hproc', hu, hfreed, hpage, hrest⟩
    exact ⟨hcalls, rfl, hfit, hsupply, ⟨⟨t₂, hproc', hu⟩, hfreed, hpage, hrest⟩⟩

/-- `exec` succeeds exactly for the programs and arguments it accepts, if there are enough free
pages. -/
theorem exec_spec (fs : Files) (path : Str) (h : Ready L s t img A) (hshort : ∀ s ∈ argv, s.length < pgSize)
    (hfew : argv.length < maxArg) :
    Ensures (fun _ => False) (exec L fs path argv) (fun r s' =>
      s'.calls = s.calls ++ fsCalls fs path ∧
        match r with
        | none => Unchanged s s' ∧ ∀ ip x, ¬Accepts fs path argv s.kmem ip x
        | some argc => argc = argv.length ∧ ∃ ip x, Accepts fs path argv s.kmem ip x ∧
            Replaced L path argv
              (Elfhdr.ofBytes (Fs.flatRead (fs.content ip) 0 elfhdrSize)).entry x.1 x.2 t A s s') s := by
  have hwf := h.uvm.space.wf
  have htf : s.proc.trapframe < 2 ^ 64 := h.trapframe_ram.lt.trans (by decide)
  unfold exec fsCalls
  apply ensures_call
  cases hip : fs.namei path with
  | none =>
    apply ensures_call
    refine ⟨by simp, ⟨rfl, SameOutside.refl _ _, rfl⟩, fun ip x ha => ?_⟩
    rw [ha.found] at hip
    cases hip
  | some ip =>
    apply ensures_call
    have hacc : ∀ ip' x, Accepts fs path argv s.kmem ip' x → program (fs.content ip) = some x ∧
        argBytes argv ≤ pgSize ∧ s.kmem.Supplies (3 + imagePages (numPages x.1 + 2)) :=
      fun ip' x ha => by
        have := ha.found.symm.trans hip
        rw [Option.some.inj this] at ha
        exact ⟨ha.program, ha.fits, ha.supplies⟩
    have hcalls : ∀ l, s.calls ++ [FsCall.beginOp] ++ [FsCall.ilock ip] ++ l =
        s.calls ++ ([FsCall.beginOp, FsCall.ilock ip] ++ l) := by
      intro l
      simp only [List.append_assoc, List.cons_append, List.nil_append]
    have hbad : program (fs.content ip) = none → Ensures (fun _ => False) (bad L (some ip) 0 0)
        (fun r s' => s'.calls = s.calls ++ [.beginOp, .ilock ip, .iunlockput ip, .endOp] ∧
          match r with
          | none => Unchanged s s' ∧ ∀ ip x, ¬Accepts fs path argv s.kmem ip x
          | some argc => argc = argv.length ∧ ∃ ip x, Accepts fs path argv s.kmem ip x ∧
              Replaced L path argv
                (Elfhdr.ofBytes (Fs.flatRead (fs.content ip) 0 elfhdrSize)).entry x.1 x.2 t A s s')
        { s with calls := s.calls ++ [.beginOp] ++ [.ilock ip] } := fun hnone => by
      refine (bad_zero ip).mono ?_
      rintro _ s' ⟨rfl, hproc, hkmem, hc⟩
      refine ⟨hc.trans (hcalls _), ⟨hproc, ?_, ?_⟩, fun ip' x ha => ?_⟩
      · rw [hkmem]
        exact SameOutside.refl _ _
      · rw [hkmem]
      · exact by cases hnone.symm.trans (hacc ip' x ha).1
    dsimp only
    by_cases hlen : (Fs.flatRead (fs.content ip) 0 elfhdrSize).length ≠ elfhdrSize
    · rw [if_pos hlen]
      exact hbad (by rw [program, if_pos (Or.inl hlen)])
    rw [if_neg hlen]
    by_cases hmagic : (Elfhdr.ofBytes (Fs.flatRead (fs.content ip) 0 elfhdrSize)).magic ≠ elfMagic
    · rw [if_pos hmagic]
      exact hbad (by rw [program, if_pos (Or.inr hmagic)])
    rw [if_neg hmagic]
    generalize helf : Elfhdr.ofBytes (Fs.flatRead (fs.content ip) 0 elfhdrSize) = elf at *
    have hprog : program (fs.content ip) =
        loadImage (fs.content ip) elf.phnum (elf.phoff % 2 ^ 32) 0 blank := by
      rw [program, helf, if_neg (not_or.mpr ⟨hlen, hmagic⟩)]
    refine Ensures.bind_ok rfl ?_
    refine ensures_kern (procPagetable_spec hwf htf) ?_
    rintro (_ | pagetable) m₁ ⟨hout, hr⟩
    · obtain ⟨hfl, hsup⟩ := hr
      refine (bad_zero ip).mono ?_
      rintro _ s' ⟨rfl, hproc, hkmem, hc⟩
      refine ⟨hc.trans (hcalls _), ⟨hproc, ?_, ?_⟩, fun ip' x ha => ?_⟩
      · rw [hkmem]
        exact hout
      · rw [hkmem]
        exact hfl
      · exact hsup ((hacc ip' x ha).2.2.mono (by omega))
    · obtain ⟨t₁, rfl, hu, hd, ps, hps, htook⟩ := hr
      have hzero := numPages_zero
      have hload := loadLoop_spec (k := elf.phnum) (elf.phoff % 2 ^ 32)
        (hzero.symm ▸ hu blank) (hzero.symm ▸ hd)
        (fun v hv => absurd hv (by rw [hzero]; exact Nat.not_lt_zero v)) (fs.size_lt ip)
      refine ensures_kern hload ?_
      rintro ⟨ok, sz⟩ m₂ hr
      rw [← hprog] at hr
      cases ok with
      | false =>
        obtain ⟨t₂, img₂, hl, hu₂⟩ := hr.uvm
        dsimp only
        rw [if_neg (by decide), ← hl]
        refine (bad_unchanged (s := ⟨m₂, s.proc, s.calls ++ [.beginOp] ++ [.ilock ip]⟩) s (some ip) rfl
          hu₂ (hout.trans hr.outside)).mono ?_
        rintro _ s' ⟨rfl, hun, hc⟩
        refine ⟨hc.trans (hcalls _), hun, fun ip' x ha => ?_⟩
        obtain ⟨hx, -, hsup⟩ := hacc ip' x ha
        refine hr.failed rfl x hx _ ?_ (hsup.after htook)
        have := imagePages_mono (show numPages x.1 ≤ numPages x.1 + 2 by omega)
        omega
      | true =>
        obtain ⟨t₂, img₂, hl, hspec, hu₂, hd₂, qs, hq, hcount⟩ := hr.done rfl
        dsimp only
        rw [if_pos rfl, ← hl]
        apply ensures_call
        apply ensures_call
        have hlen' : (ps ++ qs).length = 3 + imagePages (numPages sz) := by
          rw [hzero] at hcount
          have hz : imagePages 0 = 0 := rfl
          rw [List.length_append]
          dsimp only at hcount
          omega
        refine (execStack_spec (s := ⟨m₂, s.proc, s.calls ++ [.beginOp] ++ [.ilock ip] ++
          [.iunlockput ip] ++ [.endOp]⟩) h rfl hu₂ hd₂ (htook.trans hq) hlen' (hout.trans hr.outside)
          hshort hfew).mono ?_
        rintro (_ | argc) s' ⟨hc, hres⟩
        · refine ⟨hc.trans ?_, hres.1, fun ip' x ha => hres.2 ?_⟩
          · simp
          · obtain ⟨hx, hfit, hsup⟩ := hacc ip' x ha
            rw [hspec, Option.some.injEq] at hx
            rw [← hx] at hsup
            exact ⟨hfit, hsup⟩
        · obtain ⟨hargc, hfit, hsup, hrep⟩ := hres
          refine ⟨hc.trans ?_, hargc, ip, (sz, img₂), ⟨hip, hspec, hfit, hsup⟩, ?_⟩
          · simp
          · rw [helf]
            exact hrep

theorem exec_of_accepts {fs : Files} {x : ℕ × Image} (h : Ready L s t img A)
    (hshort : ∀ s ∈ argv, s.length < pgSize) (hfew : argv.length < maxArg)
    (hacc : Accepts fs path argv s.kmem ip x) :
    ∃ s', exec L fs path argv s = .ok (some argv.length, s') := by
  obtain ⟨r, s', hrun, -, hres⟩ := (exec_spec fs path h hshort hfew).exists_ok
  cases r with
  | none => exact absurd hacc (hres.2 ip x)
  | some argc =>
    obtain ⟨rfl, -⟩ := hres
    exact ⟨s', hrun⟩

theorem Unchanged.ready {s' : State} (h : Ready L s t img A) (hun : Unchanged s s') :
    Ready L s' t img A := by
  have hnd := h.uvm.space.nodup
  rw [← h.uvm.space.total, add_assoc] at hnd
  refine ⟨?_, ?_, ?_, ?_⟩
  · rw [hun.proc]
    refine uvm_rebase h.uvm (fun a ha => ?_) ?_ h.uvm.space.nodup h.uvm.space.ram
    · exact hun.outside a fun hf => Multiset.disjoint_left.mp (Multiset.nodup_add.mp hnd).2.2 hf ha
    · rw [hun.freelist]
      exact h.uvm.space.total
  · rw [hun.proc]
    exact h.label
  · rw [hun.proc]
    exact h.trapframe_ram
  · rw [hun.proc]
    exact h.trapframe_notMem

theorem Replaced.ready {s' : State} (h : Ready L s t img A)
    (hrep : Replaced L path argv entry sz img' t A s s') :
    ∃ t' : Radix.Tree fanout ℕ 2, s'.proc.pagetable = t'.label ∧
      Ready L s' t' (pushedArgs (withStack sz img') (stackTop sz) argv) A := by
  obtain ⟨t', hproc, hu⟩ := hrep.space
  refine ⟨t', by rw [hproc], ?_, by rw [hproc], ?_, ?_⟩
  · rw [hproc]
    show Uvm L s'.kmem t' (numPages (stackTop sz)) _ s.proc.trapframe A
    rw [stackTop, numPages_mul]
    exact hu
  · rw [hproc]
    exact h.trapframe_ram
  · rw [hproc]
    exact h.trapframe_notMem

/-- `exec` is all or nothing: with -1 the process, its address space and all of memory that is not free
are as they were, and the free list has the same pages; otherwise there is a new address space and the
old one is free. In both cases the inode is released once and the transaction ended. -/
theorem exec_all_or_nothing (fs : Files) (path : Str) (argv : ArgVec) (h : Ready L s t img A) :
    ∃ r s', exec L fs path argv.strings s = .ok (r, s') ∧
      s'.calls = s.calls ++ fsCalls fs path ∧
      match r with
      | none => s'.proc = s.proc ∧ Ready L s' t img A ∧
          (∀ a ∉ s.kmem.freelist, s'.kmem.page a = s.kmem.page a) ∧
          s'.kmem.freelist.Perm s.kmem.freelist
      | some argc => argc = argv.strings.length ∧
          (∃ (t' : Radix.Tree fanout ℕ 2) (img' : Image), s'.proc.pagetable = t'.label ∧
            Ready L s' t' img' A) ∧
          ∀ a ∈ t.labels + data t (Multiset.range (numPages s.proc.sz)), a ∈ s'.kmem.freelist := by
  obtain ⟨r, s', hrun, hcalls, hres⟩ := (exec_spec fs path h argv.short
    argv.few).exists_ok
  refine ⟨r, s', hrun, hcalls, ?_⟩
  cases r with
  | none =>
    obtain ⟨hun, -⟩ := hres
    exact ⟨hun.proc, hun.ready h, hun.outside, Multiset.coe_eq_coe.mp hun.freelist⟩
  | some argc =>
    obtain ⟨hargc, ip, x, -, hrep⟩ := hres
    obtain ⟨t', hlabel, hready⟩ := hrep.ready h
    exact ⟨hargc, ⟨t', _, hlabel, hready⟩, hrep.freed⟩

theorem exists_ready : ∃ (s : State) (t : Radix.Tree fanout ℕ 2) (img : Image) (A : Multiset ℕ),
    Ready smallKernel s t img A ∧ s.kmem.Supplies 37 := by
  have htf : smallKernel.Ram bareProc.trapframe := ⟨by decide, by decide, by decide⟩
  obtain ⟨m, t, hu, -, hsup⟩ := exists_uvm (show bareProc.trapframe < 2 ^ 64 by decide)
  refine ⟨⟨m, { bareProc with pagetable := t.label }, []⟩, t, blank, fortyPages.freelist,
    ⟨?_, rfl, htf, ?_⟩, hsup⟩
  · show Uvm smallKernel m t (numPages 0) blank _ _
    rw [numPages_zero]
    exact hu blank
  · show bareProc.trapframe ∉ (fortyPages.freelist : Multiset ℕ)
    decide

/-- The files, of which every one is a program without segments. -/
def noSegments : Files where
  namei _ := some 1
  content _ := [0x7f, 0x45, 0x4c, 0x46] ++ List.replicate 60 0
  size_lt _ := by decide

theorem noSegments_accepts {argv : List Str} (hfit : argBytes argv ≤ pgSize) (hm : m.Supplies 37) :
    Accepts noSegments [] argv m 1 (0, blank) := by
  refine ⟨rfl, ?_, hfit, hm.mono (by decide)⟩
  rw [program, if_neg (by decide)]
  rfl

/-- Two strings that do not fit in the stack page together. -/
def longStrings : List Str := List.replicate 2 (List.replicate 4000 97)

theorem longStrings_short : ∀ s ∈ longStrings, s.length < pgSize := by
  intro s hs
  rw [List.eq_of_mem_replicate hs, List.length_replicate]
  decide

theorem longStrings_noNul : ∀ s ∈ longStrings, 0 ∉ s := by
  intro s hs h0
  rw [List.eq_of_mem_replicate hs] at h0
  exact absurd (List.eq_of_mem_replicate h0) (by decide)

/-- The same process executes a program, and fails to execute it with strings that are too long. -/
theorem exec_all_or_nothing_noSegments : ∃ s s' s'',
    exec smallKernel noSegments [] [] s = .ok (some 0, s') ∧
    s'.calls = s.calls ++ [.beginOp, .ilock 1, .iunlockput 1, .endOp] ∧
    (∃ (t' : Radix.Tree fanout ℕ 2) (img' : Image) (A : Multiset ℕ), Ready smallKernel s' t' img' A) ∧
    exec smallKernel noSegments [] longStrings s = .ok (none, s'') ∧ s''.proc = s.proc ∧
    s''.kmem.freelist.Perm s.kmem.freelist := by
  obtain ⟨s, t, img, A, h, hsup⟩ := exists_ready
  have hargv : ∀ s ∈ ([] : List Str), s.length < pgSize := fun s hs => absurd hs List.not_mem_nil
  obtain ⟨s₁, hrun₁⟩ := exec_of_accepts h hargv (by decide) (noSegments_accepts (by decide) hsup)
  obtain ⟨r, s', hrun, hcalls, hres⟩ := exec_all_or_nothing noSegments []
    ⟨[], by decide, hargv, fun s hs => absurd hs List.not_mem_nil⟩ h
  rw [hrun₁, Except.ok.injEq, Prod.mk.injEq] at hrun
  obtain ⟨rfl, rfl⟩ := hrun
  obtain ⟨-, ⟨t', img', -, hready⟩, -⟩ := hres
  obtain ⟨r, s₂, hrun₂, -, hfail⟩ := exec_all_or_nothing noSegments []
    ⟨longStrings, by decide, longStrings_short, longStrings_noNul⟩ h
  obtain ⟨r', s', hrun', -, hspec⟩ := (exec_spec noSegments [] h longStrings_short
    (show longStrings.length < maxArg by decide)).exists_ok
  rw [hrun₂, Except.ok.injEq, Prod.mk.injEq] at hrun'
  obtain ⟨rfl, rfl⟩ := hrun'
  cases r with
  | none => exact ⟨s, s₁, s₂, hrun₁, hcalls, ⟨t', img', A, hready⟩, hrun₂, hfail.1, hfail.2.2.2⟩
  | some argc =>
    obtain ⟨-, ip, x, hacc, -⟩ := hspec
    exact absurd hacc.fits (by decide +kernel)

end Xv6.Exec
