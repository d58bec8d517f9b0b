import Xv6.Exec.Marshal
import Xv6.Vm.Copy

/-! The image that a well-formed file describes is the one that its program headers ask for. -/
namespace Xv6.Exec

open Lib Vm Proc

def Proghdr.HasPage (ph : Proghdr) (v : ℕ) : Prop :=
  v * pgSize < ph.vaddr + ph.memsz ∧ ph.vaddr < (v + 1) * pgSize

def elfhdr (c : List UInt8) : Elfhdr := Elfhdr.ofBytes (Fs.flatRead c 0 elfhdrSize)

def headerAt (c : List UInt8) (off : ℕ) : Proghdr := Proghdr.ofBytes ((c.drop off).take proghdrSize)

def headers (c : List UInt8) : List Proghdr :=
  (List.range (elfhdr c).phnum).map fun i => headerAt c ((elfhdr c).phoff + proghdrSize * i)

def headerOff (c : List UInt8) (i : ℕ) : ℕ := ((elfhdr c).phoff + proghdrSize * i) % 2 ^ 32

def headersRead (c : List UInt8) : List Proghdr :=
  (List.range (elfhdr c).phnum).map fun i => headerAt c (headerOff c i)

/-- Segments in ascending order that share no page. -/
def Ascending (a b : Proghdr) : Prop :=
  a.type = elfProgLoad → b.type = elfProgLoad →
    a.vaddr ≤ b.vaddr ∧ ∀ v, ¬(a.HasPage v ∧ b.HasPage v)

def Proghdr.Within (ph : Proghdr) (c : List UInt8) : Prop :=
  ph.type = elfProgLoad → 0 < ph.filesz → ph.off + ph.filesz ≤ c.length

/-- The program headers and the bytes of the segments lie within the file. -/
structure Contained (c : List UInt8) : Prop where
  headers_le : ∀ i < (elfhdr c).phnum, (elfhdr c).phoff + proghdrSize * (i + 1) ≤ c.length
  within : ∀ ph ∈ headers c, ph.Within c

/-- A file that contains what its headers describe, with the segments in order. -/
structure WellFormed (c : List UInt8) : Prop extends Contained c where
  ascending : (headers c).Pairwise Ascending

/-- The segment is in the image: the bytes of the file, then zeros, and the permissions. -/
structure Loaded (bytes : List UInt8) (img : Image) (ph : Proghdr) : Prop where
  file : ∀ k < ph.filesz, bytes[ph.off + k]? = some (img.byte (ph.vaddr + k))
  zero : ∀ k, ph.filesz ≤ k → k < ph.memsz → img.byte (ph.vaddr + k) = 0
  flags : ∀ v, ph.HasPage v → img.flags v = pteR ||| pteU ||| flags2perm ph.flags ||| pteV

/-- `loadImage` over the headers that were read. -/
def loadAll (c : List UInt8) : List Proghdr → ℕ → Image → Option (ℕ × Image)
  | [], sz, img => some (sz, img)
  | ph :: phs, sz, img =>
    if ph.type ≠ elfProgLoad then loadAll c phs sz img
    else if ph.memsz < ph.filesz ∨ 2 ^ 64 ≤ ph.vaddr + ph.memsz ∨ ph.vaddr % pgSize ≠ 0 ∨
        max sz (ph.vaddr + ph.memsz) = 0 then none
    else
      (fileBytes c (ph.off % 2 ^ 32) ph.filesz).bind fun b =>
        loadAll c phs (max sz (ph.vaddr + ph.memsz))
          ((img.fill (numPages sz) (flags2perm ph.flags)).write ph.vaddr b)

variable {c b : List UInt8} {img img' : Image} {ph : Proghdr} {phs : List Proghdr} {k off sz sz' v : ℕ}

theorem loadImage_eq_loadAll
    (hoff : ∀ i < k, (off + proghdrSize * i) % 2 ^ 32 + proghdrSize ≤ c.length)
    (hc : c.length < 2 ^ 32) :
    loadImage c k (off % 2 ^ 32) sz img = loadAll c
      ((List.range k).map fun i => headerAt c ((off + proghdrSize * i) % 2 ^ 32)) sz img := by
  induction k generalizing off sz img with
  | zero => rfl
  | succ k ih =>
    have hle : off % 2 ^ 32 + proghdrSize ≤ c.length := hoff 0 (Nat.succ_pos k)
    have hlen : (Fs.flatRead c (off % 2 ^ 32) proghdrSize).length = proghdrSize :=
      (length_flatRead_eq_iff (by decide) hc).mpr hle
    have hhdr : Proghdr.ofBytes (Fs.flatRead c (off % 2 ^ 32) proghdrSize) =
        headerAt c (off % 2 ^ 32) := by
      rw [flatRead_eq hle hc, headerAt]
    have hmul : ∀ i, off + proghdrSize + proghdrSize * i = off + proghdrSize * (i + 1) :=
      fun i => by ring
    have hnext : ∀ sz img, loadImage c k ((off % 2 ^ 32 + proghdrSize) % 2 ^ 32) sz img =
        loadAll c ((List.range k).map fun i => headerAt c ((off + proghdrSize * (i + 1)) % 2 ^ 32)) sz
          img := fun sz img => by
      rw [Nat.mod_add_mod, ih fun i hi => by rw [hmul]; exact hoff (i + 1) (Nat.succ_lt_succ hi)]
      simp only [hmul]
    rw [List.range_succ_eq_map, List.map_cons, List.map_map, Nat.mul_zero, Nat.add_zero, loadImage,
      loadAll, if_neg (not_not.mpr hlen), hhdr]
    simp only [hnext]
    rfl

/-- The segment starts above the pages that there are. -/
def Proghdr.Above (ph : Proghdr) (sz : ℕ) : Prop :=
  ph.type = elfProgLoad → ph.memsz = 0 ∨ numPages sz * pgSize ≤ ph.vaddr

/-- The pages that there are stay as they are. -/
structure Extends (img img' : Image) (n : ℕ) : Prop where
  flags : ∀ v < n, img'.flags v = img.flags v
  page : ∀ v < n, img'.page v = img.page v

theorem Extends.byte {n a : ℕ} (h : Extends img img' n) (ha : a < n * pgSize) :
    img'.byte a = img.byte a := by
  have hv : a / pgSize < n := Nat.div_lt_of_lt_mul (by rwa [Nat.mul_comm])
  rw [Image.byte, Image.byte, h.page _ hv]

theorem Extends.trans {img'' : Image} {n n' : ℕ} (h : Extends img img' n) (h' : Extends img' img'' n')
    (hn : n ≤ n') : Extends img img'' n :=
  ⟨fun v hv => (h'.flags v (hv.trans_le hn)).trans (h.flags v hv),
    fun v hv => (h'.page v (hv.trans_le hn)).trans (h.page v hv)⟩

theorem Loaded.mono {n : ℕ} (h : Loaded c img ph) (he : Extends img img' n)
    (hn : ph.vaddr + ph.memsz ≤ n * pgSize) (hfile : ph.filesz ≤ ph.memsz) : Loaded c img' ph := by
  refine ⟨fun k hk => ?_, fun k hk hk' => ?_, fun v hv => ?_⟩
  · rw [he.byte (by omega)]
    exact h.file k hk
  · rw [he.byte (by omega)]
    exact h.zero k hk hk'
  · rw [he.flags v (lt_of_mul_lt_mul_right (hv.1.trans_le hn) (Nat.zero_le _))]
    exact h.flags v hv

theorem extends_write {n xperm va : ℕ} (h : b = [] ∨ n * pgSize ≤ va) :
    Extends img ((img.fill n xperm).write va b) n := by
  refine ⟨fun v hv => if_pos hv, fun v hv => ?_⟩
  have hfill : (img.fill n xperm).page v = img.page v := if_pos hv
  rw [← hfill]
  funext i
  have hi : (i : ℕ) < 4096 := i.isLt
  show (if va ≤ v * 4096 + i ∧ v * 4096 + i < va + b.length then _ else _) = _
  rw [if_neg]
  rintro ⟨hlo, hhi⟩
  rcases h with rfl | h
  · rw [List.length_nil] at hhi
    omega
  · rw [pgSize_eq] at h
    omega

theorem fileBytes_eq_some {bytes : List UInt8} {sz : ℕ} (h : fileBytes bytes off sz = some b) :
    b.length = sz ∧ ∀ k < sz, off + sz ≤ bytes.length ∧ b[k]? = bytes[off + k]? := by
  unfold fileBytes at h
  split_ifs at h with h0 hle
  · rw [← Option.some.inj h]
    exact ⟨h0.symm, fun k hk => by omega⟩
  · rw [← Option.some.inj h]
    refine ⟨by rw [List.length_take, List.length_drop]; omega, fun k hk => ⟨hle, ?_⟩⟩
    rw [List.getElem?_take_of_lt hk, List.getElem?_drop]

theorem loaded_write (habove : ph.memsz = 0 ∨ numPages sz * pgSize ≤ ph.vaddr)
    (halign : ph.vaddr % pgSize = 0) (hwithin : 0 < ph.filesz → ph.off + ph.filesz ≤ c.length)
    (hb : fileBytes c (ph.off % 2 ^ 32) ph.filesz = some b) (hc : c.length < 2 ^ 32) :
    Loaded c ((img.fill (numPages sz) (flags2perm ph.flags)).write ph.vaddr b) ph := by
  obtain ⟨hlen, hbytes⟩ := fileBytes_eq_some hb
  have hpages : ∀ v, ph.HasPage v → ¬v < numPages sz := fun v hv hlt => by
    unfold Proghdr.HasPage at hv
    rw [pgSize_eq] at *
    omega
  refine ⟨fun k hk => ?_, fun k hk hk' => ?_, fun v hv => if_neg (hpages v hv)⟩
  · have hoff : ph.off % 2 ^ 32 = ph.off := Nat.mod_eq_of_lt (by
      have := hwithin (by omega)
      omega)
    obtain ⟨hle, hget⟩ := hbytes k hk
    rw [hoff] at hget hle
    rw [Image.byte_write, if_pos (by omega), Nat.add_sub_cancel_left, ← hget,
      List.getD_eq_getElem?_getD, List.getElem?_eq_getElem (by omega), Option.getD_some]
  · have hpage : ph.HasPage ((ph.vaddr + k) / pgSize) := by
      unfold Proghdr.HasPage
      rw [pgSize_eq] at *
      omega
    have hzero : (img.fill (numPages sz) (flags2perm ph.flags)).page ((ph.vaddr + k) / pgSize) =
        fun _ => 0 := if_neg (hpages _ hpage)
    rw [Image.byte_write, if_neg (by omega), Image.byte, hzero, Bytes.get,
      dif_pos (Nat.mod_lt _ (by decide))]

theorem Ascending.above {ph q : Proghdr} (h : Ascending ph q) (hph : ph.type = elfProgLoad)
    (halign : ph.vaddr % pgSize = 0) (hq : q.Above sz) :
    q.Above (max sz (ph.vaddr + ph.memsz)) := by
  intro htype
  obtain ⟨hle, hshare⟩ := h hph htype
  rcases hq htype with hq | hq
  · exact Or.inl hq
  by_cases hmem : q.memsz = 0
  · exact Or.inl hmem
  right
  by_contra hlt
  have hpages : numPages (max sz (ph.vaddr + ph.memsz)) =
      max (numPages sz) (numPages (ph.vaddr + ph.memsz)) := by
    rcases le_total sz (ph.vaddr + ph.memsz) with h | h
    · rw [Nat.max_eq_right h, Nat.max_eq_right (numPages_mono h)]
    · rw [Nat.max_eq_left h, Nat.max_eq_left (numPages_mono h)]
  have hv : q.vaddr / pgSize < numPages (ph.vaddr + ph.memsz) := by
    rw [hpages] at hlt
    rw [pgSize_eq] at *
    omega
  have hv' := lt_numPages.mp hv
  refine hshare (q.vaddr / pgSize) ⟨⟨hv', ?_⟩, ?_, ?_⟩
  · rw [pgSize_eq] at *
    omega
  · rw [pgSize_eq] at *
    omega
  · rw [pgSize_eq] at *
    omega

/-- All segments are loaded, and loading one does not spoil those before it. -/
theorem loadAll_spec (h : loadAll c phs sz img = some (sz', img')) (habove : ∀ ph ∈ phs, ph.Above sz)
    (hasc : phs.Pairwise Ascending) (hwithin : ∀ ph ∈ phs, ph.Within c) (hc : c.length < 2 ^ 32) :
    Extends img img' (numPages sz) ∧ sz ≤ sz' ∧
      ∀ ph ∈ phs, ph.type = elfProgLoad →
        Loaded c img' ph ∧ ph.vaddr + ph.memsz ≤ sz' ∧ ph.filesz ≤ ph.memsz := by
  induction phs generalizing sz img with
  | nil =>
    rw [loadAll, Option.some.injEq, Prod.mk.injEq] at h
    rw [← h.1, ← h.2]
    exact ⟨⟨fun _ _ => rfl, fun _ _ => rfl⟩, le_rfl, fun ph hph => absurd hph List.not_mem_nil⟩
  | cons ph phs ih =>
    obtain ⟨hhead, htail⟩ := List.pairwise_cons.mp hasc
    have habove' := fun q hq => habove q (List.mem_cons_of_mem ph hq)
    have hwithin' := fun q hq => hwithin q (List.mem_cons_of_mem ph hq)
    rw [loadAll] at h
    by_cases htype : ph.type ≠ elfProgLoad
    · rw [if_pos htype] at h
      obtain ⟨hext, hle, hall⟩ := ih h habove' htail hwithin'
      refine ⟨hext, hle, fun q hq hqt => ?_⟩
      rcases List.mem_cons.mp hq with rfl | hq
      · exact absurd hqt htype
      · exact hall q hq hqt
    have htype' := not_not.mp htype
    rw [if_neg htype] at h
    by_cases hbad : ph.memsz < ph.filesz ∨ 2 ^ 64 ≤ ph.vaddr + ph.memsz ∨ ph.vaddr % pgSize ≠ 0 ∨
        max sz (ph.vaddr + ph.memsz) = 0
    · rw [if_pos hbad] at h
      cases h
    rw [if_neg hbad] at h
    obtain ⟨b, hb, h⟩ := Option.bind_eq_some_iff.mp h
    have halign : ph.vaddr % pgSize = 0 := by
      by_contra hne
      exact hbad (Or.inr (Or.inr (Or.inl hne)))
    have hfile : ph.filesz ≤ ph.memsz := by
      by_contra hlt
      exact hbad (Or.inl (not_le.mp hlt))
    have hself := habove ph List.mem_cons_self htype'
    obtain ⟨hext, hle, hall⟩ := ih h
      (fun q hq => (hhead q hq).above htype' halign (habove' q hq)) htail hwithin'
    have hbound : ph.vaddr + ph.memsz ≤ numPages (max sz (ph.vaddr + ph.memsz)) * pgSize :=
      (Nat.le_max_right _ _).trans (le_numPages_mul _)
    have hwrite : b = [] ∨ numPages sz * pgSize ≤ ph.vaddr := by
      rcases hself with h0 | h0
      · left
        have := (fileBytes_eq_some hb).1
        exact List.length_eq_zero_iff.mp (by omega)
      · exact Or.inr h0
    refine ⟨(extends_write hwrite).trans hext (numPages_mono (Nat.le_max_left _ _)),
      (Nat.le_max_left _ _).trans hle, fun q hq hqt => ?_⟩
    rcases List.mem_cons.mp hq with rfl | hq
    · refine ⟨(loaded_write hself halign (hwithin q List.mem_cons_self htype') hb hc).mono hext hbound
        hfile, (Nat.le_max_right _ _).trans hle, hfile⟩
    · exact hall q hq hqt

theorem Contained.headerOff_eq (h : Contained c) (hc : c.length < 2 ^ 32) {i : ℕ}
    (hi : i < (elfhdr c).phnum) : headerOff c i = (elfhdr c).phoff + proghdrSize * i := by
  have hle := h.headers_le i hi
  rw [Nat.mul_add] at hle
  exact Nat.mod_eq_of_lt (by omega)

theorem Contained.headersRead_eq (h : Contained c) (hc : c.length < 2 ^ 32) :
    headersRead c = headers c := by
  apply List.map_congr_left
  intro i hi
  rw [h.headerOff_eq hc (List.mem_range.mp hi)]

theorem program_loaded (hwf : WellFormed c) (hc : c.length < 2 ^ 32)
    (h : program c = some (sz, img)) (hph : ph ∈ headers c) (htype : ph.type = elfProgLoad) :
    Loaded c img ph ∧ ph.vaddr + ph.memsz ≤ sz ∧ ph.filesz ≤ ph.memsz := by
  have hoff : ∀ i < (elfhdr c).phnum, headerOff c i + proghdrSize ≤ c.length := fun i hi => by
    rw [hwf.headerOff_eq hc hi]
    exact hwf.headers_le i hi
  rw [program] at h
  split_ifs at h
  have hload : loadAll c (headersRead c) 0 blank = some (sz, img) :=
    (loadImage_eq_loadAll hoff hc).symm.trans h
  rw [hwf.headersRead_eq hc] at hload
  refine (loadAll_spec hload (fun q _ _ => Or.inr ?_) hwf.ascending hwf.within hc).2.2 ph hph htype
  rw [numPages_zero, Nat.zero_mul]
  exact Nat.zero_le _

/-! What `exec` leaves in memory. -/

variable {L : Layout} {m : Kmem} {S s' : State} {t : Radix.Tree fanout ℕ 2} {A : Multiset ℕ}
  {n tf ip argc va : ℕ}

theorem userByte_eq (h : Uvm L m t n img tf A) (ha : va < n * pgSize) :
    userByte m t va = img.byte va := by
  have hv : va / pgSize < n := Nat.div_lt_of_lt_mul (by rwa [Nat.mul_comm])
  rw [userByte, Image.byte, h.page _ hv]

theorem perm_flags (flags : ℕ) :
    (pteR ||| pteU ||| flags2perm flags ||| pteV) &&& pteU ≠ 0 ∧
      (pteR ||| pteU ||| flags2perm flags ||| pteV) &&& pteR ≠ 0 ∧
      ((pteR ||| pteU ||| flags2perm flags ||| pteV) &&& pteW ≠ 0 ↔ flags &&& 2 ≠ 0) ∧
      ((pteR ||| pteU ||| flags2perm flags ||| pteV) &&& pteX ≠ 0 ↔ flags &&& 1 ≠ 0) := by
  have hall : ∀ x w : Bool, ∀ f ∈ [pteR ||| pteU |||
      ((if x = true then pteX else 0) ||| (if w = true then pteW else 0)) ||| pteV],
      f &&& pteU ≠ 0 ∧ f &&& pteR ≠ 0 ∧ (f &&& pteW ≠ 0 ↔ w = true) ∧ (f &&& pteX ≠ 0 ↔ x = true) := by
    decide
  have h := hall (decide (flags &&& 1 ≠ 0)) (decide (flags &&& 2 ≠ 0)) _ (List.mem_singleton.mpr rfl)
  simp only [decide_eq_true_eq] at h
  exact h

theorem extends_pushedArgs (sz : ℕ) (img : Image) {argv : List Str} (hfit : argBytes argv ≤ pgSize) :
    (∀ v, (pushedArgs (withStack sz img) (stackTop sz) argv).flags v = (withStack sz img).flags v) ∧
      ∀ a < numPages sz * pgSize,
        (pushedArgs (withStack sz img) (stackTop sz) argv).byte a = img.byte a := by
  refine ⟨fun v => ?_, fun a ha => ?_⟩
  · rw [pushedArgs, Image.flags_write, flags_pushedStrings]
  · have hbase : (numPages sz + 1) * pgSize + pgSize = stackTop sz := by
      rw [stackTop, ← Nat.succ_mul]
    have hlt : a < (numPages sz + 1) * pgSize := by
      rw [Nat.add_mul]
      omega
    have hv : a / pgSize < numPages sz := Nat.div_lt_of_lt_mul (by
      rw [Nat.mul_comm]
      exact ha)
    have hpage : (withStack sz img).page (a / pgSize) = img.page (a / pgSize) := by
      rw [withStack, Image.page_set_of_ne (by omega)]
      exact if_pos hv
    rw [byte_pushedArgs_of_lt hbase hfit hlt, Image.byte, Image.byte, hpage]

/-- `exec` loads the image that a well-formed file describes. -/
theorem exec_loads_image (fs : Files) (path : Str) (argv : ArgVec) (h : Ready L S t img A)
    (hfound : fs.namei path = some ip) (hwf : WellFormed (fs.content ip))
    (hrun : exec L fs path argv.strings S = .ok (some argc, s')) :
    ∃ (t' : Radix.Tree fanout ℕ 2) (img' : Image), s'.proc.pagetable = t'.label ∧
      Ready L s' t' img' A ∧
      (∀ ph ∈ headers (fs.content ip), ph.type = elfProgLoad →
        (∀ k < ph.filesz,
          (fs.content ip)[ph.off + k]? = some (userByte s'.kmem t' (ph.vaddr + k))) ∧
        (∀ k, ph.filesz ≤ k → k < ph.memsz → userByte s'.kmem t' (ph.vaddr + k) = 0) ∧
        ∀ v, ph.HasPage v → t'.find 0 v &&& pteV ≠ 0 ∧ t'.find 0 v &&& pteU ≠ 0 ∧
          t'.find 0 v &&& pteR ≠ 0 ∧ (t'.find 0 v &&& pteW ≠ 0 ↔ ph.flags &&& 2 ≠ 0) ∧
          (t'.find 0 v &&& pteX ≠ 0 ↔ ph.flags &&& 1 ≠ 0)) ∧
      t'.find 0 (s'.proc.sz / pgSize - 2) &&& pteU = 0 ∧
      t'.find 0 (s'.proc.sz / pgSize - 1) &&& pteW ≠ 0 ∧
      t'.find 0 (s'.proc.sz / pgSize - 1) &&& pteX = 0 := by
  obtain ⟨-, -, ip', x, hacc, hrep⟩ := (exec_spec fs path h argv.short argv.few).of_ok hrun
  obtain rfl : ip = ip' := Option.some.inj (hfound.symm.trans hacc.found)
  obtain ⟨t', hlabel, hready⟩ := hrep.ready h
  obtain ⟨t₁, hproc, -⟩ := hrep.space
  have hsz : s'.proc.sz = (numPages x.1 + 2) * pgSize := by rw [hproc]; rfl
  have hdiv : s'.proc.sz / pgSize = numPages x.1 + 2 := by
    rw [hsz, Nat.mul_div_cancel _ (by decide)]
  have hu := hready.uvm
  rw [hsz, numPages_mul] at hu
  obtain ⟨hflags, hbytes⟩ := extends_pushedArgs x.1 x.2 hacc.fits
  have hfind : ∀ v y, v < numPages x.1 + 2 → y < 1024 →
      t'.find 0 v &&& y = (withStack x.1 x.2).flags v &&& y := fun v y hv hy => by
    rw [hu.and_flags hv hy, hflags]
  have hguard : (x.2.fill (numPages x.1) pteW).flags (numPages x.1) = pteR ||| pteU ||| pteW ||| pteV :=
    if_neg (by omega)
  have hstack : (withStack x.1 x.2).flags (numPages x.1 + 1) = pteR ||| pteU ||| pteW ||| pteV := by
    rw [withStack, Image.flags_set_of_ne (by omega)]
    exact if_neg (by omega)
  refine ⟨t', _, hlabel, hready, fun ph hph htype => ?_, ?_, ?_, ?_⟩
  · obtain ⟨hload, hend, hfile⟩ := program_loaded hwf (fs.size_lt ip) hacc.program hph htype
    have hpages := le_numPages_mul x.1
    have hbyte : ∀ k < ph.memsz, userByte s'.kmem t' (ph.vaddr + k) = x.2.byte (ph.vaddr + k) :=
      fun k hk => by
        rw [userByte_eq hu (by rw [Nat.add_mul]; omega), hbytes _ (by omega)]
    refine ⟨fun k hk => ?_, fun k hk hk' => ?_, fun v hv => ?_⟩
    · rw [hbyte k (by omega)]
      exact hload.file k hk
    · rw [hbyte k hk']
      exact hload.zero k hk hk'
    · have hlt : v < numPages x.1 := lt_numPages.mpr (hv.1.trans_le hend)
      have hperm : (withStack x.1 x.2).flags v = pteR ||| pteU ||| flags2perm ph.flags ||| pteV := by
        rw [withStack, Image.flags_set_of_ne (by omega), ← hload.flags v hv]
        exact if_pos hlt
      have hbits : ∀ y < 1024, t'.find 0 v &&& y =
          (pteR ||| pteU ||| flags2perm ph.flags ||| pteV) &&& y := fun y hy => by
        rw [hfind v y (by omega) hy, hperm]
      rw [hbits pteU (by decide), hbits pteR (by decide), hbits pteW (by decide),
        hbits pteX (by decide)]
      exact ⟨(hu.leaf (by omega)).valid, perm_flags ph.flags⟩
  · rw [hdiv, Nat.add_sub_cancel, hfind _ _ (by omega) (by decide), withStack, Image.flags_set_self,
      hguard]
    decide
  · rw [hdiv, show numPages x.1 + 2 - 1 = numPages x.1 + 1 by omega,
      hfind _ _ (by omega) (by decide), hstack]
    decide
  · rw [hdiv, show numPages x.1 + 2 - 1 = numPages x.1 + 1 by omega,
      hfind _ _ (by omega) (by decide), hstack]
    decide

/-- The files, of which every one is a program with a segment of four bytes from the file and four
zeros. -/
def oneSegment : Files where
  namei _ := some 1
  content _ := [0x7f, 0x45, 0x4c, 0x46] ++ List.replicate 28 0 ++ leBytes 8 64 ++ List.replicate 16 0 ++
    leBytes 2 1 ++ List.replicate 6 0 ++ leBytes 4 1 ++ leBytes 4 5 ++ leBytes 8 120 ++ leBytes 8 0 ++
    leBytes 8 0 ++ leBytes 8 4 ++ leBytes 8 8 ++ leBytes 8 0 ++ [1, 2, 3, 4]
  size_lt _ := by decide +kernel

theorem oneSegment_headers : headers (oneSegment.content 1) = [⟨1, 5, 120, 0, 4, 8⟩] := by
  decide +kernel

theorem oneSegment_wellFormed : WellFormed (oneSegment.content 1) := by
  refine ⟨⟨by decide +kernel, fun ph hph => ?_⟩, ?_⟩
  · rw [oneSegment_headers, List.mem_singleton] at hph
    rw [hph]
    exact fun _ _ => by decide +kernel
  · rw [oneSegment_headers]
    exact List.pairwise_singleton _ _

theorem exec_loads_image_oneSegment : ∃ S s', exec smallKernel oneSegment [] [] S = .ok (some 0, s') ∧
    ∃ t' : Radix.Tree fanout ℕ 2, s'.proc.pagetable = t'.label ∧ userByte s'.kmem t' 2 = 3 ∧
      userByte s'.kmem t' 5 = 0 ∧ t'.find 0 0 &&& pteW = 0 ∧ t'.find 0 0 &&& pteX ≠ 0 := by
  obtain ⟨S, t, img, A, h, hsup⟩ := exists_ready
  have hargv : ∀ s ∈ ([] : List Str), s.length < pgSize := fun s hs => absurd hs List.not_mem_nil
  have hsize : (program (oneSegment.content 1)).map Prod.fst = some 8 := by decide +kernel
  obtain ⟨x, hx, hsz⟩ := Option.map_eq_some_iff.mp hsize
  have hacc : Accepts oneSegment [] [] S.kmem 1 x := ⟨rfl, hx, by decide, hsup.mono (by
    rw [hsz]
    decide)⟩
  obtain ⟨s', hrun⟩ := exec_of_accepts h hargv (by decide) hacc
  obtain ⟨t', img', hlabel, -, hall, -⟩ := exec_loads_image oneSegment [] ⟨[], by decide, hargv,
    fun s hs => absurd hs List.not_mem_nil⟩ h rfl oneSegment_wellFormed hrun
  obtain ⟨hfile, hzero, hperm⟩ := hall ⟨1, 5, 120, 0, 4, 8⟩ (by
    rw [oneSegment_headers]
    exact List.mem_singleton.mpr rfl) rfl
  obtain ⟨-, -, -, hW, hX⟩ := hperm 0 ⟨by decide, by decide⟩
  refine ⟨S, s', hrun, t', hlabel, ?_, hzero 5 (by decide) (by decide), ?_, ?_⟩
  · have h2 := hfile 2 (by decide)
    have h3 : (oneSegment.content 1)[120 + 2]? = some 3 := by decide +kernel
    exact Option.some.inj (h2.symm.trans h3)
  · by_contra hne
    exact absurd (hW.mp hne) (by decide)
  · exact hX.mpr (by decide)

end Xv6.Exec
