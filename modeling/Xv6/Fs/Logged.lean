import Xv6.Fs.Balloc
import Xv6.Log.Protocol

/-! File system code inside a transaction, where `log_write` panics if the log is full, and how many
blocks the code may list there. -/
namespace Xv6.Fs

open Bio Lib

variable {α β : Type} {sb : Superblock} {ip : Dinode} {S S' : Finset ℕ} {v : View} {l : Log}

def record : Op → Log → Except String Log
  | .logWrite b, l => (Log.logWrite l b).map Prod.fst
  | _, l => .ok l

/-- `viewInterp` with the log of the open transaction. -/
def txnInterp : Interp Bio.interface (View × Log) := fun o s => do
  let (r, v) ← viewInterp o s.1
  let l ← record o s.2
  return (r, v, l)

/-- The blocks that the transaction has listed after an operation, with `S` before it. -/
def listed : Op → Finset ℕ → Finset ℕ
  | .logWrite b, S => insert b S
  | _, S => S

/-- Whatever `p` reads, the blocks listed when it returns are in `Q`. -/
def Logs : Code α → (α → Finset ℕ → Prop) → Finset ℕ → Prop
  | .ret a, Q, S => Q a S
  | .op o k, Q, S => ∀ r, Logs (k r) Q (listed o S)

theorem Logs.mono {p : Code α} {Q R : α → Finset ℕ → Prop} (h : Logs p Q S)
    (hQ : ∀ a T, Q a T → R a T) : Logs p R S := by
  induction p generalizing S with
  | ret a => exact hQ a S h
  | op o k ih => exact fun r => ih r (h r)

theorem Logs.bind {p : Code α} {f : α → Code β} {Q : α → Finset ℕ → Prop} {R : β → Finset ℕ → Prop}
    (h : Logs p Q S) (hf : ∀ a T, Q a T → Logs (f a) R T) : Logs (p >>= f) R S := by
  induction p generalizing S with
  | ret a => exact hf a S h
  | op o k ih => exact fun r => ih r (h r)

section Rules

variable {Q : α → Finset ℕ → Prop} {b : ℕ}

end Rules

theorem Logs.card_le {p : Code α} {Q : α → View → Prop} {K : ℕ} (h : Logs p (fun _ T => T.card ≤ K) S)
    (hp : p.Returns viewInterp Q v) : S.card ≤ K := by
  induction p generalizing S v with
  | ret a => exact h
  | op o k ih =>
    obtain ⟨-, ⟨⟨r, w⟩, hI⟩, hrest⟩ := hp
    refine le_trans (Finset.card_le_card ?_) (ih r (h r) (hrest r w hI))
    cases o with
    | logWrite b => exact Finset.subset_insert b S
    | _ => exact subset_rfl

/-- The log has room for `K` more blocks than the `n` that it had before the code began. -/
structure Room (l : Log) (n K : ℕ) : Prop where
  outstanding : 1 ≤ l.outstanding
  log : ((n + K : ℕ) : ℤ) < logSize
  size : ((n + K : ℕ) : ℤ) < l.size - 1

theorem Room.record {n K : ℕ} (h : Room l n K) (o : Op) (hS : ∀ b ∈ S, b ∈ l.lh)
    (hlen : l.lh.length ≤ n + S.card) (hK : S.card ≤ K) :
    ∃ l', Fs.record o l = .ok l' ∧ Room l' n K ∧ (∀ b ∈ listed o S, b ∈ l'.lh) ∧
      l'.lh.length ≤ n + (listed o S).card := by
  have hout := h.outstanding
  have hlog := h.log
  have hsize := h.size
  cases o with
  | logWrite b =>
    rw [Fs.record, Log.logWrite, if_neg (by omega), if_neg (by omega)]
    split_ifs with hb
    · refine ⟨l, rfl, h, fun x hx => ?_, hlen.trans ?_⟩
      · obtain rfl | hx := Finset.mem_insert.mp hx
        · exact hb
        · exact hS x hx
      · exact Nat.add_le_add_left (Finset.card_le_card (Finset.subset_insert b S)) n
    · refine ⟨_, rfl, ⟨hout, hlog, hsize⟩, fun x hx => ?_, ?_⟩
      · obtain rfl | hx := Finset.mem_insert.mp hx
        · exact List.mem_append_right _ (List.mem_singleton_self x)
        · exact List.mem_append_left _ (hS x hx)
      · have hnew : b ∉ S := fun hbS => hb (hS b hbS)
        rw [listed, Finset.card_insert_of_notMem hnew, List.length_append, List.length_singleton]
        omega
  | _ => exact ⟨l, rfl, h, hS, hlen⟩

/-- Code that returns by itself returns inside a transaction that has room for what it lists. -/
theorem Logs.returns {p : Code α} {Q : α → View → Prop} {n K : ℕ}
    (h : Logs p (fun _ T => T.card ≤ K) S) (hp : p.Returns viewInterp Q v) (hroom : Room l n K)
    (hS : ∀ b ∈ S, b ∈ l.lh) (hlen : l.lh.length ≤ n + S.card) :
    p.Returns txnInterp (fun a s => Q a s.1 ∧ Room s.2 n K ∧ s.2.lh.length ≤ n + K) (v, l) := by
  induction p generalizing S v l with
  | ret a => exact .ret ⟨hp.2, hroom, hlen.trans (Nat.add_le_add_left h n)⟩
  | op o k ih =>
    obtain ⟨l', hl', hroom', hS', hlen'⟩ := hroom.record o hS hlen (h.card_le hp)
    obtain ⟨-, ⟨⟨r, w⟩, hI⟩, hrest⟩ := hp
    refine .op (r := r) (t := (w, l')) ?_ (ih r (h r) (hrest r w hI) hroom' hS' hlen')
    rw [txnInterp, hI, hl']
    rfl

end Xv6.Fs
