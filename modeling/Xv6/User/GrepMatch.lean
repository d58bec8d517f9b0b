import Mathlib.Computability.Language
import Xv6.Str

/-! The matcher of `user/grep.c`, and the languages that its patterns denote. -/
namespace Xv6.User.Grep

mutual

def matchhere (re text : Str) : Bool :=
  match re with
  | [] => true
  | c :: re =>
    if re.headD 0 = 42 then matchstar c re.tail text
    else if c = 36 ∧ re = [] then decide (text = [])
    else
      match text with
      | [] => false
      | t :: text => if c = 46 ∨ c = t then matchhere re text else false
termination_by (re.length, 0, text.length)
decreasing_by
  · apply Prod.Lex.left
    simp only [List.length_tail, List.length_cons]
    omega
  · apply Prod.Lex.left
    simp

/-- Match `c*re` at the beginning of `text`. -/
def matchstar (c : UInt8) (re text : Str) : Bool :=
  if matchhere re text then true
  else
    match text with
    | [] => false
    | t :: text => if t = c ∨ c = 46 then matchstar c re text else false
termination_by (re.length, 1, text.length)

end

/-- The loop of `match`: try every position, the end of the text included. -/
def matchAnywhere (re : Str) : Str → Bool
  | [] => matchhere re []
  | t :: text => if matchhere re (t :: text) then true else matchAnywhere re text

/-- The function `match`. -/
def matchText (re text : Str) : Bool :=
  if re.headD 0 = 94 then matchhere re.tail text else matchAnywhere re text

inductive Atom where
  | any
  | char (c : UInt8)

inductive Item where
  | one (a : Atom)
  | star (a : Atom)

structure Pattern where
  anchoredStart : Bool
  items : List Item
  anchoredEnd : Bool

def Atom.language : Atom → Language UInt8
  | .any => {w | ∃ c, w = [c]}
  | .char c => {[c]}

def Item.language : Item → Language UInt8
  | .one a => a.language
  | .star a => KStar.kstar a.language

def itemsLanguage (items : List Item) : Language UInt8 := (items.map Item.language).prod

/-- Some part of the text is in the language of the items, and is where the anchors ask for it. -/
def Pattern.Contained (p : Pattern) (text : Str) : Prop :=
  ∃ u w v, text = u ++ w ++ v ∧ w ∈ itemsLanguage p.items ∧
    (p.anchoredStart = true → u = []) ∧ (p.anchoredEnd = true → v = [])

def atomOf (c : UInt8) : Atom := if c = 46 then .any else .char c

/-- The items of a pattern, and whether a final `$` anchors it. -/
def parseItems : Str → List Item × Bool
  | [] => ([], false)
  | [c] => if c = 36 then ([], true) else ([.one (atomOf c)], false)
  | c :: d :: re =>
    if d = 42 then (.star (atomOf c) :: (parseItems re).1, (parseItems re).2)
    else (.one (atomOf c) :: (parseItems (d :: re)).1, (parseItems (d :: re)).2)

def parsePattern (re : Str) : Pattern :=
  if re.headD 0 = 94 then ⟨true, (parseItems re.tail).1, (parseItems re.tail).2⟩
  else ⟨false, (parseItems re).1, (parseItems re).2⟩

theorem mem_atomOf_language {c : UInt8} {w : Str} :
    w ∈ (atomOf c).language ↔ ∃ t, w = [t] ∧ (c = 46 ∨ c = t) := by
  unfold atomOf
  split_ifs with hc
  · constructor
    · rintro ⟨t, rfl⟩
      exact ⟨t, rfl, Or.inl hc⟩
    · rintro ⟨t, rfl, -⟩
      exact ⟨t, rfl⟩
  · constructor
    · intro hw
      exact ⟨c, hw, Or.inr rfl⟩
    · rintro ⟨t, rfl, h | rfl⟩
      · exact absurd h hc
      · exact rfl

theorem mem_star_language {c : UInt8} {w : Str} :
    w ∈ (Item.star (atomOf c)).language ↔ ∀ t ∈ w, t = c ∨ c = 46 := by
  show w ∈ KStar.kstar (atomOf c).language ↔ _
  rw [Language.mem_kstar]
  constructor
  · rintro ⟨l, rfl, hl⟩ t ht
    obtain ⟨x, hx, htx⟩ := List.mem_flatten.mp ht
    obtain ⟨t', rfl, h⟩ := mem_atomOf_language.mp (hl x hx)
    obtain rfl := List.mem_singleton.mp htx
    rcases h with h | h
    · exact Or.inr h
    · exact Or.inl h.symm
  · intro h
    refine ⟨w.map fun t => [t], ?_, ?_⟩
    · simp [← List.flatMap_def]
    · intro x hx
      obtain ⟨t, ht, rfl⟩ := List.mem_map.mp hx
      refine mem_atomOf_language.mpr ⟨t, rfl, ?_⟩
      rcases h t ht with h | h
      · exact Or.inr h.symm
      · exact Or.inl h

theorem mem_itemsLanguage_cons {i : Item} {items : List Item} {w : Str} :
    w ∈ itemsLanguage (i :: items) ↔
      ∃ x ∈ i.language, ∃ y ∈ itemsLanguage items, x ++ y = w := by
  rw [itemsLanguage, List.map_cons, List.prod_cons, Language.mem_mul]
  rfl

/-- The shortest-first loop finds a match if there is one after any number of characters. -/
theorem matchstar_iff (c : UInt8) (re text : Str) :
    matchstar c re text = true ↔
      ∃ w rest, text = w ++ rest ∧ (∀ t ∈ w, t = c ∨ c = 46) ∧ matchhere re rest = true := by
  induction text with
  | nil =>
    rw [matchstar]
    constructor
    · intro h
      refine ⟨[], [], rfl, fun t ht => (by cases ht), ?_⟩
      by_contra hm
      simp [hm] at h
    · rintro ⟨w, rest, hw, -, hm⟩
      obtain ⟨rfl, rfl⟩ := List.append_eq_nil_iff.mp hw.symm
      rw [if_pos hm]
  | cons t text ih =>
    rw [matchstar]
    by_cases hm : matchhere re (t :: text) = true
    · rw [if_pos hm]
      exact iff_of_true rfl ⟨[], t :: text, rfl, fun t ht => (by cases ht), hm⟩
    · rw [if_neg hm]
      by_cases ht : t = c ∨ c = 46
      · rw [if_pos ht, ih]
        constructor
        · rintro ⟨w, rest, rfl, hw, hr⟩
          exact ⟨t :: w, rest, rfl, List.forall_mem_cons.mpr ⟨ht, hw⟩, hr⟩
        · rintro ⟨w, rest, heq, hw, hr⟩
          cases w with
          | nil =>
            rw [List.nil_append] at heq
            exact absurd (heq ▸ hr) hm
          | cons t' w =>
            obtain ⟨rfl, rfl⟩ := List.cons.inj heq
            exact ⟨w, rest, rfl, (List.forall_mem_cons.mp hw).2, hr⟩
      · rw [if_neg ht]
        constructor
        · exact fun h => (by cases h)
        · rintro ⟨w, rest, heq, hw, hr⟩
          cases w with
          | nil =>
            rw [List.nil_append] at heq
            exact absurd (heq ▸ hr) hm
          | cons t' w =>
            obtain ⟨rfl, rfl⟩ := List.cons.inj heq
            exact absurd ((List.forall_mem_cons.mp hw).1) ht

/-- Some beginning of the text is in the language, and is all of it if the end is anchored. -/
def Begins (p : List Item × Bool) (text : Str) : Prop :=
  ∃ w v, text = w ++ v ∧ w ∈ itemsLanguage p.1 ∧ (p.2 = true → v = [])

theorem begins_nil (text : Str) : Begins ([], false) text :=
  ⟨[], text, rfl, rfl, fun h => (by cases h)⟩

theorem begins_end (text : Str) : Begins ([], true) text ↔ text = [] := by
  constructor
  · rintro ⟨w, v, rfl, hw, hv⟩
    rw [hv rfl, List.append_nil]
    exact hw
  · rintro rfl
    exact ⟨[], [], rfl, rfl, fun _ => rfl⟩

theorem begins_cons (i : Item) (items : List Item) (stop : Bool) (text : Str) :
    Begins (i :: items, stop) text ↔
      ∃ w rest, text = w ++ rest ∧ w ∈ i.language ∧ Begins (items, stop) rest := by
  constructor
  · rintro ⟨w, v, rfl, hw, hv⟩
    obtain ⟨x, hx, y, hy, rfl⟩ := mem_itemsLanguage_cons.mp hw
    exact ⟨x, y ++ v, List.append_assoc x y v, hx, y, v, rfl, hy, hv⟩
  · rintro ⟨x, rest, rfl, hx, y, v, rfl, hy, hv⟩
    exact ⟨x ++ y, v, (List.append_assoc x y v).symm,
      mem_itemsLanguage_cons.mpr ⟨x, hx, y, hy, rfl⟩, hv⟩

theorem begins_one (c : UInt8) (items : List Item) (stop : Bool) (text : Str) :
    Begins (.one (atomOf c) :: items, stop) text ↔
      ∃ t rest, text = t :: rest ∧ (c = 46 ∨ c = t) ∧ Begins (items, stop) rest := by
  rw [begins_cons]
  constructor
  · rintro ⟨w, rest, rfl, hw, h⟩
    obtain ⟨t, rfl, ht⟩ := mem_atomOf_language.mp hw
    exact ⟨t, rest, rfl, ht, h⟩
  · rintro ⟨t, rest, rfl, ht, h⟩
    exact ⟨[t], rest, rfl, mem_atomOf_language.mpr ⟨t, rfl, ht⟩, h⟩

theorem matchhere_one {c : UInt8} {re : Str} (hstar : re.headD 0 ≠ 42) (hend : ¬(c = 36 ∧ re = []))
    (text : Str) :
    matchhere (c :: re) text = true ↔
      ∃ t rest, text = t :: rest ∧ (c = 46 ∨ c = t) ∧ matchhere re rest = true := by
  rw [matchhere.eq_def]
  simp only
  rw [if_neg hstar, if_neg hend]
  cases text with
  | nil => simp
  | cons t text =>
    by_cases ht : c = 46 ∨ c = t
    · simp [ht]
    · simp [ht]

theorem matchhere_iff (re text : Str) : matchhere re text = true ↔ Begins (parseItems re) text := by
  induction re using parseItems.induct generalizing text with
  | case1 =>
    rw [matchhere.eq_def]
    exact iff_of_true rfl (begins_nil text)
  | case2 =>
    rw [matchhere.eq_def]
    simp [parseItems, begins_end]
  | case3 c hc =>
    rw [parseItems, if_neg hc, begins_one, matchhere_one (by simp) (by simp [hc])]
    simp [begins_nil, matchhere.eq_def []]
  | case4 c re ih =>
    rw [parseItems, if_pos rfl, begins_cons, matchhere.eq_def]
    simp only [List.headD_cons, List.tail_cons, if_true]
    rw [matchstar_iff]
    simp only [ih, mem_star_language]
  | case5 c d re hd ih =>
    rw [parseItems, if_neg hd, begins_one, matchhere_one (by simpa using hd) (by simp)]
    simp only [ih]

theorem matchAnywhere_iff (re text : Str) :
    matchAnywhere re text = true ↔ ∃ u rest, text = u ++ rest ∧ matchhere re rest = true := by
  induction text with
  | nil => simp [matchAnywhere]
  | cons t text ih =>
    rw [matchAnywhere]
    by_cases hm : matchhere re (t :: text) = true
    · rw [if_pos hm]
      exact iff_of_true rfl ⟨[], t :: text, rfl, hm⟩
    · rw [if_neg hm, ih]
      constructor
      · rintro ⟨u, rest, rfl, hr⟩
        exact ⟨t :: u, rest, rfl, hr⟩
      · rintro ⟨u, rest, heq, hr⟩
        cases u with
        | nil =>
          rw [List.nil_append] at heq
          exact absurd (heq ▸ hr) hm
        | cons t' u =>
          obtain ⟨rfl, rfl⟩ := List.cons.inj heq
          exact ⟨u, rest, rfl, hr⟩

/-- `match` finds a pattern exactly in the texts that contain a word of its language. -/
theorem matchText_iff (re text : Str) :
    matchText re text = true ↔ (parsePattern re).Contained text := by
  unfold matchText parsePattern
  split_ifs with hc
  · rw [matchhere_iff]
    constructor
    · rintro ⟨w, v, rfl, hw, hv⟩
      exact ⟨[], w, v, rfl, hw, fun _ => rfl, hv⟩
    · rintro ⟨u, w, v, rfl, hw, hu, hv⟩
      exact ⟨w, v, by rw [hu rfl, List.nil_append], hw, hv⟩
  · rw [matchAnywhere_iff]
    simp only [matchhere_iff]
    constructor
    · rintro ⟨u, rest, rfl, w, v, rfl, hw, hv⟩
      exact ⟨u, w, v, (List.append_assoc u w v).symm, hw, fun h => (by cases h), hv⟩
    · rintro ⟨u, w, v, rfl, hw, -, hv⟩
      exact ⟨u, w ++ v, List.append_assoc u w v, w, v, rfl, hw, hv⟩

end Xv6.User.Grep
