import Xv6.Bio.Cache
import Xv6.Lib.Links
import Xv6.Lib.System

/-! The list of buffers in `kernel/bio.c` as pointers: it is the list of `Bcache`, and `bget` recycles the
buffer that has been without references for the longest time. -/
namespace Xv6.Bio

open Lib

structure LinkedCache where
  buf : Fin nbuf → Buf
  links : Links (Fin nbuf)

namespace LinkedCache

variable {c : LinkedCache} {i j : Fin nbuf} {dev blockno : ℕ} {l : List (Fin nbuf)}

def binit (c : LinkedCache) : LinkedCache :=
  let links := ⟨Function.update c.links.next none none, Function.update c.links.prev none none⟩
  { c with links := (List.finRange nbuf).foldl Links.insert links }

def set (c : LinkedCache) (i : Fin nbuf) (b : Buf) : LinkedCache :=
  { c with buf := Function.update c.buf i b }

def Names (c : LinkedCache) (i : Fin nbuf) (dev blockno : ℕ) : Prop :=
  (c.buf i).dev = dev ∧ (c.buf i).blockno = blockno

instance : Decidable (c.Names i dev blockno) := inferInstanceAs (Decidable (_ ∧ _))

/-- `bget` up to `acquiresleep`, or `none` if one of its loops does not come back to the head. -/
def bget (c : LinkedCache) (dev blockno : ℕ) : Option (Except String (Fin nbuf × LinkedCache)) := do
  match ← Links.scan c.links.next (fun i => decide (c.Names i dev blockno)) (nbuf + 1)
      (c.links.next none) with
  | some i => some (.ok (i, c.set i { c.buf i with refcnt := (c.buf i).refcnt + 1 }))
  | none =>
    match ← Links.scan c.links.prev (fun i => decide ((c.buf i).refcnt = 0)) (nbuf + 1)
        (c.links.prev none) with
    | some i => some (.ok (i, c.set i
        { c.buf i with dev := dev, blockno := blockno, valid := false, refcnt := 1 }))
    | none => some (.error "bget: no buffers")

def brelse (c : LinkedCache) (i : Fin nbuf) : LinkedCache :=
  let c := c.set i { c.buf i with refcnt := (c.buf i).refcnt - 1 }
  if (c.buf i).refcnt = 0 then { c with links := (c.links.remove i).insert i } else c

def bpin (c : LinkedCache) (i : Fin nbuf) : LinkedCache :=
  c.set i { c.buf i with refcnt := (c.buf i).refcnt + 1 }

def bunpin (c : LinkedCache) (i : Fin nbuf) : LinkedCache :=
  c.set i { c.buf i with refcnt := (c.buf i).refcnt - 1 }

/-- The pointers make up the list of all buffers that `b` has. -/
structure Represents (c : LinkedCache) (b : Bcache) : Prop where
  buf : c.buf = b.buf
  lists : c.links.Lists b.lru
  all : ∀ i, i ∈ b.lru

variable {b : Bcache}

theorem Represents.length (h : c.Represents b) : b.lru.length = nbuf := by
  have hperm : b.lru.Perm (List.finRange nbuf) :=
    (List.perm_ext_iff_of_nodup h.lists.nodup (List.nodup_finRange nbuf)).mpr fun i => by simp [h.all i]
  rw [hperm.length_eq, List.length_finRange]

theorem Represents.set (h : c.Represents b) (i : Fin nbuf) (x : Buf) :
    (c.set i x).Represents (b.set i x) :=
  ⟨by rw [LinkedCache.set, Bcache.set_buf, h.buf], h.lists, h.all⟩

theorem Represents.bget (h : c.Represents b) (dev blockno : ℕ) :
    match b.bget dev blockno with
    | .ok (i, b') => ∃ c', c.bget dev blockno = some (.ok (i, c')) ∧ c'.Represents b'
    | .error msg => c.bget dev blockno = some (.error msg) := by
  have hlen := h.length
  have hbuf := h.buf
  have hnext := h.lists.scan_next (fun i => decide (c.Names i dev blockno)) (nbuf + 1) (by omega)
  have hprev : Links.scan c.links.prev (fun i => decide ((c.buf i).refcnt = 0)) (nbuf + 1)
      (c.links.prev none) = _ :=
    h.lists.flip.scan_next (fun i => decide ((c.buf i).refcnt = 0)) (nbuf + 1) (by simp; omega)
  have hnames : (fun i => decide (c.Names i dev blockno)) = fun i => decide (b.Names i dev blockno) := by
    funext i
    exact decide_eq_decide.mpr (by rw [Names, Bcache.Names, hbuf])
  unfold LinkedCache.bget Bcache.bget
  rw [hnext, hprev, hnames, hbuf]
  simp only [Option.bind_eq_bind, Option.bind_some]
  cases b.lru.find? fun i => decide (b.Names i dev blockno) with
  | some i => exact ⟨_, rfl, h.set i _⟩
  | none =>
    cases b.lru.reverse.find? fun i => decide ((b.buf i).refcnt = 0) with
    | some i => exact ⟨_, rfl, h.set i _⟩
    | none => rfl

theorem Represents.brelse (h : c.Represents b) (i : Fin nbuf) : (c.brelse i).Represents (b.brelse i) := by
  have hset := h.set i { b.buf i with refcnt := (b.buf i).refcnt - 1 }
  unfold LinkedCache.brelse Bcache.brelse
  rw [h.buf]
  dsimp only
  have hr : ((c.set i { b.buf i with refcnt := (b.buf i).refcnt - 1 }).buf i).refcnt =
      ((b.set i { b.buf i with refcnt := (b.buf i).refcnt - 1 }).buf i).refcnt := by rw [hset.buf]
  rw [hr]
  split_ifs with h0
  · obtain ⟨l₁, l₂, hl⟩ := List.append_of_mem (h.all i)
    have hnd := h.lists.nodup
    have hlists := h.lists
    rw [hl] at hnd hlists
    obtain ⟨hni, -⟩ := List.nodup_cons.mp (List.nodup_middle.mp hnd)
    have herase : b.lru.erase i = l₁ ++ l₂ := by
      rw [hl, List.erase_append_right _ fun hm => hni (List.mem_append_left _ hm), List.erase_cons_head]
    refine ⟨hset.buf, ?_, fun j => ?_⟩
    · show ((c.links.remove i).insert i).Lists (i :: b.lru.erase i)
      rw [herase]
      exact hlists.remove.insert hni
    · by_cases hj : j = i
      · simp [hj]
      · simpa [hj, List.mem_erase_of_ne hj] using h.all j
  · exact hset

theorem represents_binit (c : LinkedCache) :
    c.binit.Represents ⟨c.buf, (List.finRange nbuf).reverse⟩ := by
  have hgen : ∀ (l l' : List (Fin nbuf)) (r : Links (Fin nbuf)), r.Lists l' → (l ++ l').Nodup →
      (l.foldl Links.insert r).Lists (l.reverse ++ l') := by
    intro l
    induction l with
    | nil => exact fun _ _ h _ => h
    | cons i l ih =>
      intro l' r h hnd
      rw [List.cons_append, List.nodup_cons, List.mem_append, not_or] at hnd
      rw [List.foldl_cons, List.reverse_cons, List.append_assoc, List.singleton_append]
      apply ih _ _ (h.insert hnd.1.2)
      rw [List.nodup_middle, List.nodup_cons, List.mem_append, not_or]
      exact hnd
  refine ⟨rfl, ?_, fun i => by simp⟩
  have h := hgen (List.finRange nbuf) []
    ⟨Function.update c.links.next none none, Function.update c.links.prev none none⟩
    (Links.lists_nil (by simp) (by simp)) (by simpa using List.nodup_finRange nbuf)
  rwa [List.append_nil] at h

end LinkedCache

/-- The cache in use. `held` counts the references that callers of `bget` have, and `pins` those that
`bpin` made. `stamp` is when the buffer has last lost its last reference: before its first release, its
number, so that the order is that of `binit`. -/
structure CacheState where
  cache : LinkedCache
  held : Fin nbuf → ℕ
  pins : Fin nbuf → ℕ
  stamp : Fin nbuf → ℕ
  clock : ℕ

/-- Calls of `bio.c`. The callers release what they hold, and unpin a buffer that they hold. -/
inductive CacheStep : CacheState → CacheState → Prop
  | bget {s} (dev blockno i c) (hd : dev ≠ 0) (h : s.cache.bget dev blockno = some (.ok (i, c))) :
      CacheStep s { s with cache := c, held := Function.update s.held i (s.held i + 1) }
  | bpin {s} (i) :
      CacheStep s { s with cache := s.cache.bpin i, pins := Function.update s.pins i (s.pins i + 1) }
  | bunpin {s} (i) (hh : 0 < s.held i) (hp : 0 < s.pins i) :
      CacheStep s { s with cache := s.cache.bunpin i, pins := Function.update s.pins i (s.pins i - 1) }
  | brelse {s} (i) (hh : 0 < s.held i) :
      CacheStep s { s with
        cache := s.cache.brelse i
        held := Function.update s.held i (s.held i - 1)
        stamp := if ((s.cache.brelse i).buf i).refcnt = 0 then Function.update s.stamp i s.clock else s.stamp
        clock := s.clock + 1 }

def CacheInit (s : CacheState) : Prop :=
  ∃ c : LinkedCache, (∀ i, (c.buf i).dev = 0 ∧ (c.buf i).blockno = 0 ∧ (c.buf i).refcnt = 0) ∧
    s = ⟨c.binit, fun _ => 0, fun _ => 0, fun i => i, nbuf⟩

def cacheSystem : System CacheState where
  init := CacheInit
  step := CacheStep

/-- The list is sorted by the time of the last release, and the reference counts are right. -/
structure Sorted (s : CacheState) (b : Bcache) : Prop where
  represents : s.cache.Represents b
  sorted : b.lru.Pairwise fun i j => s.stamp j < s.stamp i
  clock : ∀ i, s.stamp i < s.clock
  unique : ∀ i j, (b.buf i).dev ≠ 0 → b.Names j (b.buf i).dev (b.buf i).blockno → i = j
  refcnt : ∀ i, (b.buf i).refcnt = s.held i + s.pins i

namespace Sorted

variable {s s' : CacheState} {b : Bcache}

theorem init (h : CacheInit s) : ∃ b, Sorted s b := by
  obtain ⟨c, hz, rfl⟩ := h
  refine ⟨_, c.represents_binit, ?_, fun i => i.isLt, fun i _ hd => absurd (hz i).1 hd, fun i => (hz i).2.2⟩
  rw [List.pairwise_reverse]
  exact (List.pairwise_lt_finRange nbuf).imp fun h => h

theorem recount (h : Sorted s b) (i : Fin nbuf) (n : ℕ) {held pins : Fin nbuf → ℕ}
    (hi : n = held i + pins i) (hh : ∀ j, j ≠ i → held j = s.held j) (hp : ∀ j, j ≠ i → pins j = s.pins j) :
    Sorted { s with
        cache := s.cache.set i { s.cache.buf i with refcnt := n }
        held := held
        pins := pins }
      (b.set i { b.buf i with refcnt := n }) := by
  have hr := Bcache.recounts_set b i n
  refine ⟨?_, h.sorted, h.clock, ?_, ?_⟩
  · rw [h.represents.buf]
    exact h.represents.set i _
  · intro j k hd hn
    obtain ⟨m, hm⟩ := hr j
    rw [hm] at hd hn
    exact h.unique j k hd (hr.names.mp hn)
  · intro j
    by_cases hj : j = i
    · simpa [hj] using hi
    · simpa [hj, hh j hj, hp j hj] using h.refcnt j

theorem bget (h : Sorted s b) {dev blockno : ℕ} {i : Fin nbuf} {c : LinkedCache}
    (hg : s.cache.bget dev blockno = some (.ok (i, c))) :
    ∃ b', Sorted { s with cache := c, held := Function.update s.held i (s.held i + 1) } b' := by
  have hb := h.represents.bget dev blockno
  cases hr : b.bget dev blockno with
  | error msg =>
    rw [hr, hg] at hb
    cases hb
  | ok r =>
    obtain ⟨k, b'⟩ := r
    rw [hr, hg] at hb
    obtain ⟨c', hc', hrep⟩ := hb
    cases hc'
    refine ⟨b', hrep, ?_, h.clock, ?_, ?_⟩
    · rcases Bcache.bget_ok hr with ⟨-, rfl⟩ | ⟨-, -, rfl⟩
      · exact h.sorted
      · exact h.sorted
    · rcases Bcache.bget_ok hr with ⟨-, rfl⟩ | ⟨hnone, -, rfl⟩
      · intro j k hd hn
        obtain ⟨m, hm⟩ := Bcache.recounts_set b i ((b.buf i).refcnt + 1) j
        rw [hm] at hd hn
        exact h.unique j k hd ((Bcache.recounts_set b i _).names.mp hn)
      · -- the recycled buffer is the only one with its new block
        intro j k hj hk
        by_cases hji : j = i
        · by_cases hki : k = i
          · exact hji.trans hki.symm
          · subst hji
            rw [Bcache.set_buf, Function.update_self] at hk
            refine (hnone k (h.represents.all k) ?_).elim
            simpa [Bcache.Names, hki] using hk
        · by_cases hki : k = i
          · subst hki
            simp only [Bcache.Names, Bcache.set_buf, Function.update_self,
              Function.update_of_ne hji] at hk
            exact (hnone j (h.represents.all j) ⟨hk.1.symm, hk.2.symm⟩).elim
          · simp only [Bcache.Names, Bcache.set_buf, Function.update_of_ne hji,
              Function.update_of_ne hki] at hj hk
            exact h.unique j k hj hk
    · intro j
      have hj := h.refcnt j
      rcases Bcache.bget_ok hr with ⟨-, rfl⟩ | ⟨-, h0, rfl⟩
      · by_cases hji : j = i
        · subst hji
          simp [hj]
          omega
        · simpa [hji] using hj
      · by_cases hji : j = i
        · subst hji
          simp
          omega
        · simpa [hji] using hj

/-- Every call on the cache keeps the list sorted by the times of the last releases. -/
theorem step (h : Sorted s b) (hst : CacheStep s s') : ∃ b', Sorted s' b' := by
  cases hst with
  | bget dev blockno i c hd hg => exact h.bget hg
  | bpin i =>
    have hi := h.refcnt i
    rw [← h.represents.buf] at hi
    refine ⟨_, h.recount i _ ?_ (fun _ _ => rfl) fun j hj => Function.update_of_ne hj _ _⟩
    rw [Function.update_self]
    omega
  | bunpin i hh hp =>
    have hi := h.refcnt i
    rw [← h.represents.buf] at hi
    refine ⟨_, h.recount i _ ?_ (fun _ _ => rfl) fun j hj => Function.update_of_ne hj _ _⟩
    rw [Function.update_self]
    omega
  | brelse i hh =>
    have hrep := h.represents.brelse i
    have hi := h.refcnt i
    have hbuf : ((s.cache.brelse i).buf i).refcnt = (b.buf i).refcnt - 1 := by
      rw [hrep.buf, Bcache.brelse_buf, Function.update_self]
    refine ⟨b.brelse i, hrep, ?_, ?_, ?_, ?_⟩
    · dsimp only
      rw [hbuf]
      unfold Bcache.brelse
      simp only [Bcache.set_buf, Function.update_self]
      by_cases h1 : (b.buf i).refcnt - 1 = 0
      · rw [if_pos h1, if_pos h1, List.pairwise_cons]
        -- every other stamp is older than the clock
        have hne : ∀ j ∈ b.lru.erase i, j ≠ i := fun j hj =>
          (h.represents.lists.nodup.mem_erase_iff.mp hj).1
        refine ⟨fun j hj => ?_, ?_⟩
        · simpa [hne j hj] using h.clock j
        · refine (h.sorted.sublist List.erase_sublist).imp_of_mem fun {j k} hj hk hlt => ?_
          simpa [hne j hj, hne k hk] using hlt
      · rw [if_neg h1, if_neg h1]
        exact h.sorted
    · intro j
      have := h.clock j
      dsimp only
      split_ifs
      · by_cases hj : j = i
        · simp [hj]
        · simp [hj]
          omega
      · omega
    · have hr := Bcache.recounts_brelse b i
      intro j k hd hn
      obtain ⟨m, hm⟩ := hr j
      rw [hm] at hd hn
      exact h.unique j k hd (hr.names.mp hn)
    · intro j
      rw [Bcache.brelse_buf]
      by_cases hj : j = i
      · subst hj
        simp
        omega
      · simpa [hj] using h.refcnt j

theorem reachable (h : cacheSystem.Reachable s) : ∃ b, Sorted s b :=
  h.invariant (I := fun s => ∃ b, Sorted s b) (fun _ => init) fun _ _ _ ⟨_, hb⟩ hst => hb.step hst

/-- The buffer without references that comes first from the end of the list is the oldest. -/
theorem oldest (h : Sorted s b) {i j : Fin nbuf}
    (hf : b.lru.reverse.find? (fun i => decide ((b.buf i).refcnt = 0)) = some i)
    (hj : (b.buf j).refcnt = 0) : s.stamp i ≤ s.stamp j := by
  obtain ⟨-, as, bs, hl, has⟩ := List.find?_eq_some_iff_append.mp hf
  have hsorted : b.lru.reverse.Pairwise fun i j => s.stamp i < s.stamp j :=
    List.pairwise_reverse.mpr h.sorted
  have hm : j ∈ b.lru.reverse := List.mem_reverse.mpr (h.represents.all j)
  rw [hl] at hm hsorted
  rcases List.mem_append.mp hm with hm | hm
  · have := has j hm
    simp [hj] at this
  · rcases List.mem_cons.mp hm with rfl | hm
    · exact le_rfl
    · exact ((List.pairwise_cons.mp (List.pairwise_append.mp hsorted).2.1).1 j hm).le

end Sorted

/-- The buffers in the order of `next`, from the head and back to it; `prev` gives the reverse. -/
def Circular (links : Links (Fin nbuf)) (l : List (Fin nbuf)) : Prop :=
  l.Nodup ∧ (∀ i, i ∈ l) ∧
    ∀ k ≤ nbuf, links.next^[k + 1] none = l[k]? ∧ links.prev^[k + 1] none = l.reverse[k]?

theorem LinkedCache.Represents.circular {c : LinkedCache} {b : Bcache} (h : c.Represents b) :
    Circular c.links b.lru := by
  have hlen := h.length
  refine ⟨h.lists.nodup, h.all, fun k hk => ⟨?_, ?_⟩⟩
  · exact h.lists.iterate_next k (by omega)
  · exact h.lists.flip.iterate_next k (by simp; omega)

/-- The structure of the buffer cache, what `brelse` leaves, which buffer `bget` takes and what it
leaves. -/
theorem bcache_structure {s : CacheState} (h : cacheSystem.Reachable s) :
    (∃ l, Circular s.cache.links l ∧ ∀ i, 0 < s.held i →
      (s.cache.brelse i).buf =
        Function.update s.cache.buf i { s.cache.buf i with refcnt := (s.cache.buf i).refcnt - 1 } ∧
      Circular (s.cache.brelse i).links
        (if (s.cache.buf i).refcnt - 1 = 0 then i :: l.erase i else l)) ∧
    (∀ i, (s.cache.buf i).refcnt = s.held i + s.pins i) ∧
    (∀ i j dev blockno, dev ≠ 0 → s.cache.Names i dev blockno → s.cache.Names j dev blockno → i = j) ∧
    ∀ dev blockno, dev ≠ 0 → ∃ r, s.cache.bget dev blockno = some r ∧
      match r with
      | .ok (i, c) =>
        s.cache.Names i dev blockno ∧
            c = s.cache.set i { s.cache.buf i with refcnt := (s.cache.buf i).refcnt + 1 } ∨
          (∀ j, ¬s.cache.Names j dev blockno) ∧ (s.cache.buf i).refcnt = 0 ∧
            (∀ j, (s.cache.buf j).refcnt = 0 → s.stamp i ≤ s.stamp j) ∧
            c = s.cache.set i
              { s.cache.buf i with dev := dev, blockno := blockno, valid := false, refcnt := 1 }
      | .error _ => (∀ j, ¬s.cache.Names j dev blockno) ∧ ∀ j, (s.cache.buf j).refcnt ≠ 0 := by
  obtain ⟨b, hs⟩ := Sorted.reachable h
  have hrep := hs.represents
  have hbuf := hrep.buf
  have hnames : ∀ i dev blockno, s.cache.Names i dev blockno ↔ b.Names i dev blockno := by
    intro i dev blockno
    rw [LinkedCache.Names, Bcache.Names, hbuf]
  refine ⟨⟨b.lru, hrep.circular, fun i _ => ?_⟩, ?_, ?_, ?_⟩
  · have hrel := hrep.brelse i
    refine ⟨by rw [hrel.buf, Bcache.brelse_buf, hbuf], ?_⟩
    have hlru : (b.brelse i).lru = if (s.cache.buf i).refcnt - 1 = 0 then i :: b.lru.erase i else b.lru := by
      unfold Bcache.brelse
      simp only [Bcache.set_buf, Function.update_self, hbuf]
      split_ifs <;> rfl
    rw [← hlru]
    exact hrel.circular
  · rw [hbuf]
    exact hs.refcnt
  · intro i j dev blockno hd hi hj
    obtain ⟨rfl, rfl⟩ := (hnames i dev blockno).mp hi
    exact hs.unique i j hd ((hnames j _ _).mp hj)
  · intro dev blockno _
    have hnext := hrep.lists.scan_next (fun i => decide (s.cache.Names i dev blockno)) (nbuf + 1)
      (by have := hrep.length; omega)
    have hprev : Links.scan s.cache.links.prev (fun i => decide ((s.cache.buf i).refcnt = 0)) (nbuf + 1)
        (s.cache.links.prev none) = _ :=
      hrep.lists.flip.scan_next _ (nbuf + 1) (by have := hrep.length; simp; omega)
    have hall : (b.lru.find? fun i => decide (s.cache.Names i dev blockno)) = none →
        ∀ j, ¬s.cache.Names j dev blockno := by
      intro hf j hj
      have := List.find?_eq_none.mp hf j (hrep.all j)
      simp [hj] at this
    unfold LinkedCache.bget
    rw [hnext, hprev]
    simp only [Option.bind_eq_bind, Option.bind_some]
    cases hf : b.lru.find? fun i => decide (s.cache.Names i dev blockno) with
    | some i => exact ⟨_, rfl, Or.inl ⟨by simpa using List.find?_some hf, rfl⟩⟩
    | none =>
      cases hr : b.lru.reverse.find? fun i => decide ((s.cache.buf i).refcnt = 0) with
      | some i =>
        refine ⟨_, rfl, Or.inr ⟨hall hf, by simpa using List.find?_some hr, fun j hj => ?_, rfl⟩⟩
        rw [hbuf] at hr hj
        exact hs.oldest hr hj
      | none =>
        refine ⟨_, rfl, hall hf, fun j hj => ?_⟩
        have := List.find?_eq_none.mp hr j (List.mem_reverse.mpr (hrep.all j))
        simp [hj] at this

theorem reachable_bpins {s : CacheState} (h : cacheSystem.Reachable s) (l : List (Fin nbuf)) :
    cacheSystem.Reachable { s with
      cache := l.foldl LinkedCache.bpin s.cache
      pins := l.foldl (fun pins i => Function.update pins i (pins i + 1)) s.pins } := by
  induction l generalizing s with
  | nil => exact h
  | cons i l ih => exact ih (h.step (.bpin i))

def zeroCache : LinkedCache := ⟨fun _ => ⟨false, 0, 0, 0, fun _ => 0⟩, ⟨fun _ => none, fun _ => none⟩⟩

/-- The cache after `bget`, if that does not panic. -/
def LinkedCache.got (c : LinkedCache) (dev blockno : ℕ) : LinkedCache :=
  match c.bget dev blockno with
  | some (.ok (_, c')) => c'
  | _ => c

theorem LinkedCache.bget_got {c : LinkedCache} {dev blockno : ℕ} {i : Fin nbuf}
    (h : (c.bget dev blockno).bind (fun r => r.toOption.map Prod.fst) = some i) :
    c.bget dev blockno = some (.ok (i, c.got dev blockno)) := by
  unfold LinkedCache.got
  rcases hb : c.bget dev blockno with _ | e | ⟨j, c'⟩
  · rw [hb] at h
    cases h
  · rw [hb] at h
    cases h
  · rw [hb] at h
    obtain rfl : j = i := Option.some.inj h
    rfl

def first : Fin nbuf := ⟨0, by decide⟩

def second : Fin nbuf := ⟨1, by decide⟩

/-- All buffers but the first two are pinned. -/
def mostPinned : LinkedCache := ((List.finRange nbuf).drop 2).foldl LinkedCache.bpin zeroCache.binit

def twoReleased : LinkedCache := (((mostPinned.got 1 5).got 1 6).brelse second).brelse first

/-- The blocks 5 and 6 are read and 6 is released before 5: `bget` recycles the buffer of block 6. -/
theorem bcache_structure_recycled : ∃ s, cacheSystem.Reachable s ∧ s.cache = twoReleased ∧
    s.cache.Names first 1 5 ∧ s.cache.Names second 1 6 ∧ s.stamp second < s.stamp first ∧
    s.cache.bget 1 7 = some (.ok (second, s.cache.got 1 7)) ∧
    (∀ j, (s.cache.buf j).refcnt = 0 → s.stamp second ≤ s.stamp j) ∧
    (s.cache.got 1 7).Names second 1 7 ∧ ((s.cache.got 1 7).buf second).refcnt = 1 := by
  have h₀ : cacheSystem.Reachable ⟨zeroCache.binit, fun _ => 0, fun _ => 0, fun i => i, nbuf⟩ :=
    .init ⟨zeroCache, fun _ => ⟨rfl, rfl, rfl⟩, rfl⟩
  have h₁ : cacheSystem.Reachable ⟨mostPinned, fun _ => 0, _, fun i => i, nbuf⟩ :=
    reachable_bpins h₀ ((List.finRange nbuf).drop 2)
  have hfive : mostPinned.bget 1 5 = some (.ok (first, mostPinned.got 1 5)) :=
    LinkedCache.bget_got (by decide +kernel)
  have hsix : (mostPinned.got 1 5).bget 1 6 = some (.ok (second, (mostPinned.got 1 5).got 1 6)) :=
    LinkedCache.bget_got (by decide +kernel)
  have h₃ := (h₁.step (.bget 1 5 first _ (by decide) hfive)).step (.bget 1 6 second _ (by decide) hsix)
  have h₄ := (h₃.step (.brelse second (by decide +kernel))).step (.brelse first (by decide +kernel))
  have hget : twoReleased.bget 1 7 = some (.ok (second, twoReleased.got 1 7)) :=
    LinkedCache.bget_got (by decide +kernel)
  obtain ⟨r, hr, hres⟩ := (bcache_structure h₄).2.2.2 1 7 (by decide)
  obtain rfl := Option.some.inj (hget.symm.trans hr)
  have hno : ¬twoReleased.Names second 1 7 := by decide +kernel
  rcases hres with ⟨hname, -⟩ | ⟨-, -, hold, -⟩
  · exact absurd hname hno
  · exact ⟨_, h₄, rfl, by decide +kernel, by decide +kernel, by decide +kernel, hget, hold,
      by decide +kernel, by decide +kernel⟩

end Xv6.Bio
